import AiMidi.Proofs.Ace.AudioAssisted
import AiMidi.Proofs.Ace.CompositionServer
import AiMidi.Proofs.Ace.ContextRepo
import AiMidi.Proofs.Ace.GenerateVariations
import AiMidi.Proofs.Ace.Migrations
import AiMidi.Proofs.Ace.RegeneratedPieces
import AiMidi.Proofs.ActiveRoles
import AiMidi.Proofs.ArenaAllocator
import AiMidi.Proofs.BlueprintIdempotent
import AiMidi.Proofs.ChordContainment
import AiMidi.Proofs.ChordRedetection
import AiMidi.Proofs.Counterpoint.Parallels
import AiMidi.Proofs.Dsp.FFT
import AiMidi.Proofs.Dsp.FilterDesigns
import AiMidi.Proofs.DspCli.Padding
import AiMidi.Proofs.EarlierBars
import AiMidi.Proofs.EditorDiff
import AiMidi.Proofs.EditorHistory
import AiMidi.Proofs.Humanization.Jitter
import AiMidi.Proofs.Humanization.Styles
import AiMidi.Proofs.InputValidation
import AiMidi.Proofs.Inversions
import AiMidi.Proofs.KeyPhrases
import AiMidi.Proofs.MidiEventArena
import AiMidi.Proofs.MidiFifoClear
import AiMidi.Proofs.MidiFifoSize
import AiMidi.Proofs.MidiRenderer.HangingNotes
import AiMidi.Proofs.MidiRenderer.WellFormed
import AiMidi.Proofs.Modulation
import AiMidi.Proofs.MteCli.InstrumentTracks
import AiMidi.Proofs.MteCli.Tempo
import AiMidi.Proofs.MteCli.TrackParts
import AiMidi.Proofs.Orchestration.ChordSymbols
import AiMidi.Proofs.Orchestration.Velocities
import AiMidi.Proofs.PluginProcessor
import AiMidi.Proofs.PluginState
import AiMidi.Proofs.PromptNumbers
import AiMidi.Proofs.Reharmonize.RootLine
import AiMidi.Proofs.Reharmonize.Suffixes
import AiMidi.Proofs.RhythmBars
import AiMidi.Proofs.ServiceLocator
import AiMidi.Proofs.SingleVoice
import AiMidi.Proofs.Strings.Countermelody
import AiMidi.Proofs.UserPresets
import AiMidi.Proofs.VoicingContent
