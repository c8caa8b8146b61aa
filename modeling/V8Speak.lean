import V8Speak.PreparseRoundTrip
import V8Speak.Karatsuba
import V8Speak.Utf8StreamRefines
import V8Speak.ExpectedString
import V8Speak.ClassSet
import V8Speak.ExperimentalCompiler
import V8Speak.GapResolverCorrect
import V8Speak.RemainderReducer
import V8Speak.StringSearchCorrect
import V8Speak.RegionAllocatorTrim
import V8Speak.DaylightSavings
import V8Speak.PersistentMapIteration
import V8Speak.TranslationRoundTrip
import V8Speak.SourcePositionTable
import V8Speak.StreamingDecoderLayout
import V8Speak.TimeRounding
import V8Speak.TemporalWeek
import V8Speak.StrtodCorrect
import V8Speak.StringToInt
import V8Speak.Bitwise
import V8Speak.AsIntN
import V8Speak.SchoolbookDivision
import V8Speak.DefaultJobProtocol
