import AzooKey.Core.AppProfileResolver
import AzooKey.Core.BatchConversionChunker
import AzooKey.Core.CharacterFormCycle
import AzooKey.Core.CustomRomajiLoader
import AzooKey.Core.DictionaryAliases
import AzooKey.Core.DoubleArrayTriePredictive
import AzooKey.Core.DoubleArrayTrieSurfaces
import AzooKey.Core.InputState
import AzooKey.Core.InputStateBackspace
import AzooKey.Core.InputStateDisplay
import AzooKey.Core.InputStateLearning
import AzooKey.Core.LiveConversionChunker
import AzooKey.Core.MixedRomajiAlternatives
import AzooKey.Core.NumberRewriter
import AzooKey.Core.Redaction
import AzooKey.Core.Utf8
import AzooKey.Core.Utf8Readers
import AzooKey.Host.AnomalyDetector
import AzooKey.Host.AppliedObservations
import AzooKey.Host.Backup.Archive
import AzooKey.Host.Backup.StoreOnlyZipSafety
import AzooKey.Host.Connections
import AzooKey.Host.Dispatcher
import AzooKey.Host.English.BaseReads
import AzooKey.Host.English.OptimisticRead
import AzooKey.Host.English.StoreCalls
import AzooKey.Host.EnglishLearned
import AzooKey.Host.EnglishSuppression
import AzooKey.Host.HostRunHistory
import AzooKey.Host.HttpResume
import AzooKey.Host.LearningReset
import AzooKey.Host.ModelScanner
import AzooKey.Host.NllScorer
import AzooKey.Host.PunctuationInserter
import AzooKey.Ipc.EnvelopeVersion
import AzooKey.Ipc.Framing
import AzooKey.Ipc.JsonReprint
import AzooKey.Ipc.JsonText
import AzooKey.Ipc.NumberRange
import AzooKey.Ipc.PayloadCodecs
import AzooKey.Ipc.ProofreadSession
import AzooKey.Ipc.TraceId
import AzooKey.Learning.AutoWordRuns
import AzooKey.Learning.ContextHash
import AzooKey.Learning.DictionaryStore
import AzooKey.Learning.IntegerMembers
import AzooKey.Learning.LearningReaders
import AzooKey.Learning.LearningStorePrune
import AzooKey.Learning.LegacyRows
import AzooKey.Learning.ProtectedFile
import AzooKey.Learning.ProtectedSecret
import AzooKey.Learning.Sha256Standard
import AzooKey.Learning.TypoCorrectionStore
import AzooKey.Learning.UserDictionaryText
import AzooKey.Learning.UserDictionaryUnique
import AzooKey.Lib.Bytes
import AzooKey.Lib.FindText
import AzooKey.Lib.KeyedCounter
import AzooKey.Lib.OrderedMap
import AzooKey.Lib.Replaced
import AzooKey.Tsf.DebugLogBuffer
import AzooKey.Tsf.LiveCarryText
import AzooKey.Tsf.TypoCorrectionTracker
