import Basht.Library.Transducer
import Basht.Library.Fallible
import Basht.Library.Buffer
import Basht.Library.Circular
import Basht.Library.Coding
import Basht.Library.Splitting
import Basht.Library.Insertions
import Basht.Library.Utf8
import Basht.Library.Numerals
import Basht.Library.OneLine
import Basht.Library.Terminal
import Basht.Library.Stamps
import Basht.Library.Rotation
import Basht.Library.RingBuffer
import Basht.Library.Chains
import Basht.Library.Linked
import Basht.LineEnding.Recognizer
import Basht.LineEnding.Encoding
import Basht.LineEnding.Streams
import Basht.LineEnding.InputLine
import Basht.LineEnding.SharedInput
import Basht.Parser.ShellGetc
import Basht.Parser.Comsub
import Basht.Parser.SingleQuote
import Basht.Parser.Reread
import Basht.Filter.LineBuf
import Basht.Filter.Calls
import Basht.Filter.OneLine
import Basht.Filter.Wrapping
import Basht.Filter.Clean
import Basht.Filter.Safety
import Basht.Display.Console
import Basht.Display.Owner
import Basht.Display.Tag
import Basht.Display.Stores
import Basht.Display.Transcript
import Basht.Display.BottomLine
import Basht.Tasks.Name
import Basht.Tasks.Table
import Basht.Tasks.Tags
import Basht.Tasks.Pids
import Basht.Tasks.Feed
import Basht.Pump.SelfPump
import Basht.Wait.Episode
import Basht.Window.HandOff
import Basht.Window.Scrub
import Basht.Words.Quote
import Basht.Keyboard.Console
import Basht.Keyboard.CycleRing
import Basht.Keyboard.Relay
import Basht.Keyboard.Pump
import Basht.Keyboard.Keys
import Basht.Keyboard.History
import Basht.Keyboard.TypeAhead
import Basht.Keyboard.RelayBuffer
import Basht.Keyboard.Characters
import Basht.Keyboard.Splitting
import Basht.Fork.Processes
import Basht.Fork.Turns
import Basht.Fork.OneReader
import Basht.Quoting.Strtrans
import Basht.Quoting.RoundTrip
import Basht.Quoting.Allocation
import Basht.Hashing.Hashlib
import Basht.Hashing.FiniteMap
import Basht.Arrays.Array
import Basht.Arrays.Ring
import Basht.Arrays.Elements
import Basht.Arrays.Shifts
import Basht.Arrays.Copy
import Basht.Arrays.FiniteMap
import Basht.Arrays.Argv
import Basht.Arrays.Vector
import Basht.Arrays.Slots
import Basht.Arrays.VectorMap
import Basht.Arrays.VectorShifts
import Basht.Arrays.Alternate
import Basht.Jobs.SavedStatus
import Basht.Jobs.Linkage
import Basht.Jobs.Steps
import Basht.Jobs.KillPid
import Basht.Jobs.Latest
import Basht.Library.SlotTable
import Basht.Jobs.Table
import Basht.Jobs.TableSteps
import Basht.Jobs.TableDeletion
import Basht.Jobs.TableRuns
import Basht.Redir.Redirections
import Basht.Redir.Undo
import Basht.Dirs.Pushd
import Basht.Dirs.Stack
import Basht.Traps.Pending
import Basht.Traps.Globals
import Basht.Traps.Restored
import Basht.Traps.Delivery
import Basht.Builtins.Getopt
import Basht.Builtins.GetoptReads
import Basht.Builtins.GetoptParse
import Basht.Builtins.TestTrees
import Basht.Builtins.Read
import Basht.Builtins.Printf
import Basht.Builtins.PrintfPasses
import Basht.Expr.Strlong
import Basht.Expr.Evaluator
import Basht.Braces.Sequence
import Basht.Braces.Progression
import Basht.Words.ListString
import Basht.Words.Survive
import Basht.Words.Fields
import Basht.Words.GetWord
import Basht.Words.PatSubst
import Basht.Words.Substring
import Basht.Library.Replacement
import Basht.Library.Wildcards
import Basht.Glob.Brackets
import Basht.Glob.Gmatch
import Basht.Glob.Stars
import Basht.Input.Streams
import Basht.Input.Positions
import Basht.Input.Undo
import Basht.Input.Exec
import Basht.Input.Script
import Basht.Library.Paths
import Basht.Paths.Canonpath
import Basht.Library.Congruential
import Basht.Library.Decimals
import Basht.Numbers.Uconvert
import Basht.Numbers.Fmtulong
import Basht.Expr.Printed
import Basht.Expr.Precedence
import Basht.Execute.Errexit
import Basht.History.Numbers
import Basht.Random.ParkMiller
