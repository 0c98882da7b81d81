import Rue.Proofs.ClobberSafety
import Rue.Proofs.Scheduling
import Rue.Proofs.X86.Peephole
import Rue.Proofs.Aarch64.Peephole
import Rue.Proofs.Ownership.Runs
import Rue.Proofs.Ownership.MoveStates
import Rue.Proofs.LocalStorage.Frames
import Rue.Proofs.Opt.Dce
import Rue.Proofs.Query.WaitGraph
import Rue.Proofs.Linking.Admission
import Rue.Proofs.Query.Revision
import Rue.Proofs.Linking.Patch
import Rue.Proofs.Linking.Layout
import Rue.Proofs.Inference.Solution
import Rue.Proofs.Inference.Reachable
import Rue.Proofs.Collections.IntMap
import Rue.Proofs.Collections.HashMap
import Rue.Proofs.Linking.CString
import Rue.Proofs.Text.RoundTrip
import Rue.Proofs.Text.PathNorm
import Rue.Proofs.Opt.LoopForest
import Rue.Proofs.Opt.Peephole
import Rue.Proofs.Opt.TripCount
import Rue.Proofs.Cfg.LoweringOrder
import Rue.Proofs.Rematerialization
import Rue.Proofs.Aarch64.Relaxation
import Rue.Proofs.Collections.Deque
import Rue.Proofs.Collections.BinaryHeap
import Rue.Proofs.Collections.Strings
import Rue.Proofs.Collections.Sorting
import Rue.Proofs.Runtime.Integers
import Rue.Proofs.Runtime.Characters
import Rue.Proofs.Runtime.Math
import Rue.Proofs.Runtime.Join
import Rue.Proofs.Runtime.MemoryPrimitives
import Rue.Proofs.Allocator.Contents
import Rue.Proofs.Lexing.Runs
import Rue.Proofs.LoopDepth
import Rue.Proofs.Opt.UseIndex
import Rue.Proofs.Air.ExactDecimal
import Rue.Proofs.Text.Offsets
