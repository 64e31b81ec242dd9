import Chiptune.Capacity
import Chiptune.Channel
import Chiptune.Checksum
import Chiptune.CommandLine
import Chiptune.Compile
import Chiptune.Curve
import Chiptune.Curve.Playback
import Chiptune.Curve.Vibrato
import Chiptune.Envelope
import Chiptune.Error
import Chiptune.Expansion
import Chiptune.Gzip
import Chiptune.Gzip.Inflate
import Chiptune.Hex
import Chiptune.Image
import Chiptune.Instruction
import Chiptune.Instrument
import Chiptune.InstrumentRecord
import Chiptune.Json
import Chiptune.Json.Numeral
import Chiptune.Json.Reader
import Chiptune.Json.Source
import Chiptune.Kernel
import Chiptune.Label
import Chiptune.Layout
import Chiptune.Listing
import Chiptune.Main
import Chiptune.Options
import Chiptune.Options.File
import Chiptune.PatchTimeline
import Chiptune.Pitch
import Chiptune.Project
import Chiptune.Project.File
import Chiptune.Project.Reader
import Chiptune.Project.Writer
import Chiptune.Proofs.Accounting
import Chiptune.Proofs.Addresses
import Chiptune.Proofs.Asides
import Chiptune.Proofs.Assembly
import Chiptune.Proofs.Capabilities
import Chiptune.Proofs.CompressedSizes
import Chiptune.Proofs.Compression
import Chiptune.Proofs.CompressorSteps
import Chiptune.Proofs.CurveRecords
import Chiptune.Proofs.Curves
import Chiptune.Proofs.Drafts
import Chiptune.Proofs.Driver
import Chiptune.Proofs.DroppedTracks
import Chiptune.Proofs.Envelopes
import Chiptune.Proofs.Events
import Chiptune.Proofs.EveryCurve
import Chiptune.Proofs.ExhaustiveSearch
import Chiptune.Proofs.FileDefaults
import Chiptune.Proofs.HeaderCounts
import Chiptune.Proofs.Holdings
import Chiptune.Proofs.Instructions
import Chiptune.Proofs.Interning
import Chiptune.Proofs.JsonFields
import Chiptune.Proofs.JsonRecords
import Chiptune.Proofs.JsonText
import Chiptune.Proofs.JsonValues
import Chiptune.Proofs.JumpChains
import Chiptune.Proofs.LabelNames
import Chiptune.Proofs.ListingCalls
import Chiptune.Proofs.LoopRows
import Chiptune.Proofs.Matches
import Chiptune.Proofs.Outcomes
import Chiptune.Proofs.Passages
import Chiptune.Proofs.Passes
import Chiptune.Proofs.PatchLoads
import Chiptune.Proofs.Placement
import Chiptune.Proofs.Playback
import Chiptune.Proofs.PlayedInstruments
import Chiptune.Proofs.Player
import Chiptune.Proofs.ProjectFiles
import Chiptune.Proofs.ReadyRows
import Chiptune.Proofs.Records
import Chiptune.Proofs.ReferenceCalls
import Chiptune.Proofs.Refusals
import Chiptune.Proofs.Registers
import Chiptune.Proofs.RelativeCurves
import Chiptune.Proofs.RenamedStreams
import Chiptune.Proofs.Renaming
import Chiptune.Proofs.Replies
import Chiptune.Proofs.Resolution
import Chiptune.Proofs.Results
import Chiptune.Proofs.RoundTrip
import Chiptune.Proofs.RowInstructions
import Chiptune.Proofs.Rows
import Chiptune.Proofs.SampleSegment
import Chiptune.Proofs.Samples
import Chiptune.Proofs.Sections
import Chiptune.Proofs.Selections
import Chiptune.Proofs.SettingChanges
import Chiptune.Proofs.Settings
import Chiptune.Proofs.SharedPatch
import Chiptune.Proofs.SharedSlots
import Chiptune.Proofs.Skeleton
import Chiptune.Proofs.Slides
import Chiptune.Proofs.SlotAssignment
import Chiptune.Proofs.Slots
import Chiptune.Proofs.SongGrooves
import Chiptune.Proofs.SongSpeeds
import Chiptune.Proofs.Songs
import Chiptune.Proofs.SourceText
import Chiptune.Proofs.Sources
import Chiptune.Proofs.StoppedRows
import Chiptune.Proofs.StreamGrammar
import Chiptune.Proofs.Streams
import Chiptune.Proofs.TablePlaces
import Chiptune.Proofs.Tables
import Chiptune.Proofs.Tempo
import Chiptune.Proofs.TempoPasses
import Chiptune.Proofs.TrackRows
import Chiptune.Proofs.Twins
import Chiptune.Proofs.TwoPass
import Chiptune.Proofs.UnchangedSettings
import Chiptune.Proofs.UniqueLabels
import Chiptune.Proofs.Warnings
import Chiptune.Proofs.WaveSamples
import Chiptune.Reference
import Chiptune.Reference.Compress
import Chiptune.Report
import Chiptune.SampleData
import Chiptune.Slots
import Chiptune.Song
import Chiptune.Stream
import Chiptune.Stream.Join
import Chiptune.Stream.Sync
import Chiptune.Stream.Voice
import Chiptune.Tables
import Chiptune.Timeline
import Chiptune.Token
import Chiptune.UniqueTable
import Chiptune.Warning
import Chiptune.Waveform
