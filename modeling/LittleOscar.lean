import LittleOscar.Osc.Writer.Call
import LittleOscar.Osc.Writer.Failure
import LittleOscar.Osc.Writer.Capacity
import LittleOscar.Osc.Reader.Definitions
import LittleOscar.Osc.Bundle.Traversal
import LittleOscar.Osc.Reader.Cursor
import LittleOscar.Osc.Reader.Decode
import LittleOscar.Osc.Writer.Message
import LittleOscar.Osc.RoundTrip.Message
import LittleOscar.Osc.Writer.Bundle
import LittleOscar.Osc.RoundTrip.Bundle
import LittleOscar.Order.BinaryHeap
import LittleOscar.Queue.Definitions
import LittleOscar.Queue.Heap
import LittleOscar.Queue.History
import LittleOscar.Queue.Thread.Definitions
import LittleOscar.Queue.Thread.Exchange
import LittleOscar.Queue.Thread.WakeUp
import LittleOscar.Queue.Thread.Calls
import LittleOscar.Osc.Writer.Order
import LittleOscar.Osc.Writer.Interference
import LittleOscar.Language.Glob
import LittleOscar.Pattern.Definitions
import LittleOscar.Pattern.Grammar
import LittleOscar.Pattern.Verify
import LittleOscar.Pattern.Match
import LittleOscar.Ideas.Writer.Definitions
import LittleOscar.Ideas.Writer.Encoding
import LittleOscar.Ideas.Reader.Decode
import LittleOscar.Ideas.RoundTrip.Message
import LittleOscar.Ideas.Writer.Bundle
import LittleOscar.Ideas.Reader.Packet
import LittleOscar.Ideas.RoundTrip.Bundle
import LittleOscar.Osc.Reader.Argument
import LittleOscar.Osc.Reader.Inside
import LittleOscar.Osc.Reader.TagCursor
import LittleOscar.Osc.Reader.Init
import LittleOscar.Osc.Reader.Direct
import LittleOscar.Osc.Reader.Failure
import LittleOscar.Osc.Bundle.Drive
import LittleOscar.Osc.Bundle.Packet
import LittleOscar.Osc.Writer.Varargs
import LittleOscar.Ideas.Writer.Tuio
import LittleOscar.Osc.RoundTrip.Nested
import LittleOscar.Queue.Due
import LittleOscar.Queue.Growth
import LittleOscar.Pattern.EmptyPart
import LittleOscar.Pattern.Pointer
import LittleOscar.Ideas.Reader.Walk
import LittleOscar.Ideas.Writer.Capacity
import LittleOscar.Osc.Writer.TagArea
import LittleOscar.Osc.Writer.Alignment
import LittleOscar.Machine.Agree
import LittleOscar.Osc.Dump.Definitions
import LittleOscar.Osc.Dump.Line
import LittleOscar.Osc.Dump.Packet
import LittleOscar.Osc.Dump.Print
import LittleOscar.Queue.Demo.Definitions
import LittleOscar.Queue.Demo.Order
import LittleOscar.Osc.Dump.Safe
import LittleOscar.Transition.Output
import LittleOscar.Queue.Demo.Rest
import LittleOscar.Queue.Rounds
import LittleOscar.Ideas.Reader.Argument
import LittleOscar.Ideas.Writer.Frame
import LittleOscar.Interop.Frame
import LittleOscar.Interop.Bundle
import LittleOscar.Interop.Message
import LittleOscar.Interop.Packet
import LittleOscar.Pattern.Rounds
import LittleOscar.Pattern.Parts
import LittleOscar.Order.SortedQueue
import LittleOscar.Queue.Sorted
import LittleOscar.Queue.Thread.Sorted
