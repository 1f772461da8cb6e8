import Xcl.Arrays.Addresses
import Xcl.Arrays.Adjust
import Xcl.Assembler.Encode
import Xcl.Backquote.Expansion
import Xcl.Backquote.Model
import Xcl.BitVectors.Equal
import Xcl.BitVectors.WordLoops
import Xcl.Blocks.Kept
import Xcl.ClassGraph.Links
import Xcl.ClassPrecedence.Linearize
import Xcl.Defstruct.AccessLaws
import Xcl.Defstruct.Chain
import Xcl.Defstruct.Typed
import Xcl.DeriveType
import Xcl.DeriveType.Ash
import Xcl.Destructuring.Destructure
import Xcl.Dispatch.Cache
import Xcl.Displaced.Model
import Xcl.Displaced.Windows
import Xcl.DumpForm.RoundTrip
import Xcl.DynamicBinding.Refine
import Xcl.FixJumps
import Xcl.HashTable.Cache
import Xcl.HashTable.Maps
import Xcl.HashTable.Refine
import Xcl.HashTable.Visits
import Xcl.IR2.Loop
import Xcl.IR2.Shifts
import Xcl.Interpreter.Calls
import Xcl.Interpreter.Neutral
import Xcl.LetStar.Fold
import Xcl.Lib.Calendar
import Xcl.Lib.ConsCells
import Xcl.Lib.ConsHeap
import Xcl.Lib.RoundedDivision
import Xcl.Lists.InPlace
import Xcl.LocalFunction.Scope
import Xcl.MethodCombination.Standard
import Xcl.MultipleValues.Cleared
import Xcl.Numbers.Coherent
import Xcl.Numbers.Divide
import Xcl.Numbers.DivideExact
import Xcl.Numbers.Expt
import Xcl.Numbers.Logical
import Xcl.P2.ArithExact
import Xcl.P2.AshExact
import Xcl.P2.EqComparable
import Xcl.P2.ListDelete
import Xcl.P2.RequireType
import Xcl.P2.TypeTestsRight
import Xcl.Packages.Meaning
import Xcl.Packages.NoTrace
import Xcl.Packages.Registry
import Xcl.Packages.Tables
import Xcl.Packages.Unexport
import Xcl.Pathname.Logical
import Xcl.Pathname.Match
import Xcl.Pathname.Merge
import Xcl.Pathname.Stable
import Xcl.Pathname.Translate
import Xcl.Reader.Comment
import Xcl.Reader.List
import Xcl.Reader.NumberExact
import Xcl.Reader.Print
import Xcl.Reader.TokenExact
import Xcl.Reader.Trees
import Xcl.Restarts.Visible
import Xcl.RewriteLambda.Exact
import Xcl.Rewrites.Exact
import Xcl.Sequences.Find
import Xcl.Sequences.Mismatch
import Xcl.Sequences.Search
import Xcl.Sequences.Substitute
import Xcl.Setf.Order
import Xcl.Sorting.Merge
import Xcl.Sorting.Quicksort
import Xcl.Sorting.StableSort
import Xcl.SpecialBinding.Unwind
import Xcl.SymbolHashTable.Refine
import Xcl.SymbolMacrolet.Scope
import Xcl.Types.Canonical
import Xcl.Types.IntegerSubtypep
import Xcl.Types.IntegerTypes
import Xcl.Types.RationalSubtypep
import Xcl.Types.Subtypep
import Xcl.Types.Table
import Xcl.Types.Unions
import Xcl.UniversalTime.Model
import Xcl.UniversalTime.RoundTrip
import Xcl.Vectors.Runs
import Xcl.X86.Condition
