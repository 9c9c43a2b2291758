import AiMidi.Dsp.Spectrum

/-!
# `AiMidi.Dsp.OnsetDetection`: the onsets of a piece of audio

`process` appends the spectral flux of each frame to the detection function: how much the magnitudes
grew since the frame before. `getOnsets` picks the peaks above a threshold.
-/

set_option autoImplicit false

namespace AiMidi.Dsp

/-- The times of the onsets and how far each stands out. -/
structure OnsetResult (F : Type) where
  times : List F
  strengths : List F

/-- The state between two calls. -/
structure OnsetState (F : Type) where
  /-- `df_`, the detection function. -/
  df : List F
  prevMag : List F

namespace OnsetDetection

section

variable {F : Type} [FloatOps F]

/-! ### Processing -/

/-- The growth of each bin, summed up and averaged. -/
def spectralFlux (mag prevMag : List F) : F :=
  let sum := (mag.zip prevMag).foldl (fun sum m =>
    let diff := m.1 - m.2
    if FloatOps.lt (lit 0) diff then sum + diff else sum) (lit 0)
  sum / lit mag.length

variable {C : Type} [Add C] [Sub C] [Mul C]

/-- A new detector. -/
def initial (d : Detector F C) : OnsetState F := ⟨[], List.replicate d.binCount (lit 0)⟩

/-- One round of the loop over the frames. -/
def addFrame (d : Detector F C) (audio : Nat → F) (s : OnsetState F) (frame : Nat) :
    OnsetState F :=
  let mag := d.magnitudes audio frame
  let flux := spectralFlux mag s.prevMag
  ⟨s.df ++ [if frame ≥ 1 then flux else lit 0], mag⟩

/-- `process`: the detection function gets a value for every frame. -/
def process (d : Detector F C) (audio : Nat → F) (numSamples : Nat) (s : OnsetState F) :
    OnsetState F :=
  (List.range (d.nFrames numSamples)).foldl (addFrame d audio) s

/-! ### Peaks -/

/-- The mean and the standard deviation of the detection function. -/
def moments (df : List F) : F × F :=
  let mean := accumulate df / lit df.length
  let sqSum := accumulate (df.map fun v => (v - mean) * (v - mean))
  (mean, FloatOps.sqrt (sqSum / lit df.length))

/-- Frame `i` is above the threshold and above both its neighbours. -/
def isPeak (df : List F) (thresh : F) (i : Nat) : Bool :=
  let at_ (j : Nat) : F := df.getD j (lit 0)
  FloatOps.lt thresh (at_ i) && FloatOps.lt (at_ (i - 1)) (at_ i)
    && FloatOps.lt (at_ (i + 1)) (at_ i)

/-- `for (i = 1; i + 1 < df.size(); ++i)`. -/
def peaks (df : List F) (thresh : F) : List Nat :=
  (List.range (df.length - 1)).filter fun i => 1 ≤ i && isPeak df thresh i

/-- `getOnsets`: the peaks above the mean by `threshold` standard deviations. -/
def getOnsets (d : Detector F C) (s : OnsetState F) (threshold : F) : OnsetResult F :=
  if s.df = [] then ⟨[], []⟩
  else
    let (mean, stddev) := moments s.df
    let onsets := peaks s.df (mean + threshold * stddev)
    -- The times are those of 44.1 kHz, whatever the sample rate.
    ⟨onsets.map fun i => lit (i * d.hopSize : Nat) / lit 44100,
      onsets.map fun i => (s.df.getD i (lit 0) - mean) / stddev⟩

end

end OnsetDetection

end AiMidi.Dsp
