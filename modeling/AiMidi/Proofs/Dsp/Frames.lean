import AiMidi.Dsp.ChordDetection
import AiMidi.Dsp.KeyDetection
import AiMidi.Dsp.OnsetDetection
import AiMidi.Proofs.Dsp.Transposition

/-!
# `AiMidi.Proofs.Dsp.Frames`: what the analyses read of the audio

A frame is analysed exactly when it lies within the samples (`lt_nFrames_iff`). So the three
detectors read no sample behind the last one: audio that agrees up to there gives the same results
(`analyses_within`).

An onset is above both its neighbours. Two onsets are therefore at least two frames apart
(`peaks_apart`).
-/

set_option autoImplicit false

namespace AiMidi.Proofs.Dsp

open AiMidi.Dsp

section

variable {F C : Type} {d : Detector F C}

/-! ### Frames

The number of frames is computed from the number of samples, with a last frame that fits. A window
is taken from one frame, so no window reaches behind the samples. -/

/-- The frames that are analysed are those that lie within the samples. -/
theorem lt_nFrames_iff (hhop : 0 < d.hopSize) (numSamples frame : Nat) :
    frame < d.nFrames numSamples ↔ frame * d.hopSize + d.fftSize ≤ numSamples := by
  rw [Detector.nFrames]
  split
  · omega
  · rename_i hfit
    rw [Nat.lt_succ_iff, Nat.le_div_iff_mul_le hhop]
    omega

/-- A loop over the frames whose rounds see the same magnitudes. -/
theorem foldl_frames_congr {σ : Type} {numSamples : Nat} {step step' : σ → Nat → σ}
    (h : ∀ s, ∀ frame < d.nFrames numSamples, step s frame = step' s frame) (s : σ) :
    (List.range (d.nFrames numSamples)).foldl step s
      = (List.range (d.nFrames numSamples)).foldl step' s :=
  List.foldl_ext _ _ s fun s frame hframe => h s frame (List.mem_range.mp hframe)

variable [FloatOps F]

/-- A frame within the samples is read from them alone. -/
theorem windowed_congr (hhop : 0 < d.hopSize) {audio audio' : Nat → F} {numSamples : Nat}
    (h : ∀ i < numSamples, audio i = audio' i) {frame : Nat}
    (hframe : frame < d.nFrames numSamples) :
    d.windowed audio frame = d.windowed audio' frame := by
  have hfit := (lt_nFrames_iff hhop numSamples frame).mp hframe
  funext i
  rw [Detector.windowed, Detector.windowed]
  split
  · rw [h _ (by omega)]
  · rfl

variable [Add C] [Sub C] [Mul C]

/-- The magnitudes of a frame depend on the samples that the analysis was given, and on no
others. -/
theorem magnitudes_congr (hhop : 0 < d.hopSize) {audio audio' : Nat → F} {numSamples : Nat}
    (h : ∀ i < numSamples, audio i = audio' i) {frame : Nat}
    (hframe : frame < d.nFrames numSamples) :
    d.magnitudes audio frame = d.magnitudes audio' frame := by
  rw [Detector.magnitudes, Detector.magnitudes, windowed_congr hhop h hframe]

/-! ### The detectors

The detectors loop over the frames and read nothing else of the audio. The loops are congruent in
what they read. -/

/-- The results of the three detectors depend on the first `numSamples` samples only. -/
theorem analyses_within (hhop : 0 < d.hopSize) {audio audio' : Nat → F} {numSamples : Nat}
    (h : ∀ i < numSamples, audio i = audio' i) (key : KeyState F) (onset : OnsetState F) :
    KeyDetection.process d audio numSamples key = KeyDetection.process d audio' numSamples key ∧
    ChordDetection.process d audio numSamples = ChordDetection.process d audio' numSamples ∧
    OnsetDetection.process d audio numSamples onset
      = OnsetDetection.process d audio' numSamples onset := by
  -- All three detectors see the audio through the magnitudes of the frames.
  have hmag : ∀ frame < d.nFrames numSamples,
      d.magnitudes audio frame = d.magnitudes audio' frame :=
    fun frame hframe => magnitudes_congr hhop h hframe
  refine ⟨?_, ?_, ?_⟩
  · have hstate : KeyDetection.processed d audio numSamples key
        = KeyDetection.processed d audio' numSamples key :=
      foldl_frames_congr (fun s frame hframe => by
        rw [KeyDetection.addFrame, KeyDetection.addFrame, hmag frame hframe]) key
    rw [KeyDetection.process, KeyDetection.process, hstate]
  · refine List.flatMap_congr fun frame hframe => ?_
    rw [ChordDetection.frameResults, ChordDetection.frameResults,
      hmag frame (List.mem_range.mp hframe)]
  · exact foldl_frames_congr (fun s frame hframe => by
      rw [OnsetDetection.addFrame, OnsetDetection.addFrame, hmag frame hframe]) onset

end

/-- A detector of frames of two samples, on whole numbers that stand for their own spectrum. -/
def pairDetector : Detector Fixed Fixed where
  fftSize := 2
  hopSize := 1
  sampleRate := 44100
  fft := FFT.construct (fun _ _ => lit 1) 2
  ops := ⟨id, id, id⟩
  abs x := if x.raw < 0 then ⟨-x.raw⟩ else x
  coeffs _ := lit 1

/-- Silence, and a click behind the fourth sample. -/
theorem analyses_within_click :
    ChordDetection.process pairDetector (fun _ => lit 0) 4
      = ChordDetection.process pairDetector (fun i => if i < 4 then lit 0 else lit 1) 4 :=
  (analyses_within (show 0 < pairDetector.hopSize by decide)
    (fun i hi => (if_pos hi).symm) ⟨fun _ => lit 0, 0⟩ (OnsetDetection.initial pairDetector)).2.1

/-! ### Onsets

A peak is compared with the frames at its sides. Two peaks cannot be neighbours, since each would
have to be above the other. -/

section

variable {F : Type} [FloatOps F]

/-- A peak lies between two other frames and stands out. -/
theorem mem_peaks {df : List F} {thresh : F} {i : Nat} (h : i ∈ OnsetDetection.peaks df thresh) :
    1 ≤ i ∧ i + 1 < df.length ∧ OnsetDetection.isPeak df thresh i = true := by
  obtain ⟨hrange, hpeak⟩ := List.mem_filter.mp h
  have hlt := List.mem_range.mp hrange
  rw [Bool.and_eq_true, decide_eq_true_eq] at hpeak
  exact ⟨hpeak.1, by omega, hpeak.2⟩

/-- Two onsets are at least two frames apart, whatever the threshold. -/
theorem peaks_apart (hasymm : ∀ a b : F, FloatOps.lt a b = true → FloatOps.lt b a = false)
    (df : List F) (thresh : F) :
    (OnsetDetection.peaks df thresh).Pairwise fun i j => i + 2 ≤ j := by
  have hsorted : (OnsetDetection.peaks df thresh).Pairwise (· < ·) :=
    List.Pairwise.filter _ List.pairwise_lt_range
  refine hsorted.imp_of_mem fun {i j} hi hj hlt => ?_
  by_contra hnear
  obtain rfl : j = i + 1 := by omega
  -- Each of two neighbours would be above the other.
  have hpeak := (mem_peaks hi).2.2
  have hpeak' := (mem_peaks hj).2.2
  simp only [OnsetDetection.isPeak, Bool.and_eq_true, Nat.add_sub_cancel] at hpeak hpeak'
  exact absurd hpeak.2 (by rw [hasymm _ _ hpeak'.1.2]; decide)

end

end AiMidi.Proofs.Dsp
