import TerpBuilder.Span
import TerpBuilder.Run
import TerpBuilder.Trap
import TerpBuilder.Text
import TerpBuilder.Clock
import TerpBuilder.Course
import TerpBuilder.ScheduleModel
import TerpBuilder.Filing
import TerpBuilder.Verdict
import TerpBuilder.Booking
import TerpBuilder.Ledger
import TerpBuilder.Order
import TerpBuilder.ScheduleView
import TerpBuilder.Visible
import TerpBuilder.Placement
import TerpBuilder.SectionView
import TerpBuilder.Removal
import TerpBuilder.DirectionsModel
import TerpBuilder.Directions
import TerpBuilder.MapView
import TerpBuilder.Crash
import TerpBuilder.Discussion
import TerpBuilder.Formats
import TerpBuilder.Monotone
import TerpBuilder.LectureShown
import TerpBuilder.Routing
import TerpBuilder.KeyTree
import TerpBuilder.Firebase
import TerpBuilder.ReviewView
import TerpBuilder.Reviews
import TerpBuilder.Observe
import TerpBuilder.ReviewList
import TerpBuilder.AddClassView
import TerpBuilder.LLRBNode
import TerpBuilder.SortedAssoc
import TerpBuilder.LLRBBalance
import TerpBuilder.TreeDictionary
import TerpBuilder.ArrayDictionary
import TerpBuilder.SortedDictionary
import TerpBuilder.DictionaryEnumerator
import TerpBuilder.Keys
import TerpBuilder.DictionaryHistory
import TerpBuilder.Numeral
import TerpBuilder.NextPushId
import TerpBuilder.Posting
import TerpBuilder.ReviewForm
import TerpBuilder.Timetable
import TerpBuilder.Session
import TerpBuilder.ScheduleScreen
import TerpBuilder.SnapshotNode
import TerpBuilder.ImmutableTree
import TerpBuilder.CompoundWrite
import TerpBuilder.WriteTree
import TerpBuilder.PendingWrites
import TerpBuilder.ExcludedWrites
