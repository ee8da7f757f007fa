import Beeper.RingStore
import Beeper.WeightedQueue
import Beeper.SizeBound
import Beeper.ParseMessage
import Beeper.CorkRuns
import Beeper.CorkMessage
import Beeper.Fragmentation
import Beeper.Layout
import Beeper.Loaded
import Beeper.HpackExec
import Beeper.WholeBlocks
import Beeper.BlockAcceptance
import Beeper.Http1Limit
import Beeper.Http1Soundness
import Beeper.BlockOutcome
import Beeper.FrameOffset
import Beeper.SkbOffset
import Beeper.NameTries
import Beeper.NamesLoaded
import Beeper.StripPadding
import Beeper.HpackTrace
import Beeper.IndexEntries
import Beeper.IndexWraps
import Beeper.LongLived
import Beeper.HookReads
import Beeper.EntryLifetime
import Beeper.IndexedValues
import Beeper.StringBounds
import Beeper.HuffmanDecode
import Beeper.EdgePushes
import Beeper.BuilderTargets
import Beeper.Http1Tables
import Beeper.BuilderTrees
import Beeper.BuilderEdges
import Beeper.BuilderRuns
import Beeper.PatternPaths
import Beeper.PatternLanguage
import Beeper.BuilderRoom
import Beeper.Http1Room
import Beeper.Http1Calls
import Beeper.Http1Messages
import Beeper.Http1Positions
import Beeper.Http1Independence
import Beeper.CapturedFields
import Beeper.NamedEntries
import Beeper.VerdictStreams
import Beeper.VerdictRuns
import Beeper.HookStreams
import Beeper.RefusedRuns
import Beeper.VerdictUpgrades
import Beeper.MonitorRequests
import Beeper.Monitor
