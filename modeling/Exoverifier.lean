import Exoverifier.Library.Coordinates
import Exoverifier.Library.Carry
import Exoverifier.Library.Loop
import Exoverifier.Tnum.Basic
import Exoverifier.Tnum.Arith
import Exoverifier.Tnum.Wiring
import Exoverifier.Tnum.Shift
import Exoverifier.Tnum.Mul
import Exoverifier.Tnum.Cbmc
import Exoverifier.Library.Prefix
import Exoverifier.Tnum.Range
import Exoverifier.Domain.Tnum
import Exoverifier.Domain.Encoding
import Exoverifier.Library.WordOrder
import Exoverifier.Verifier.Bounds
import Exoverifier.Tnum.Subreg
import Exoverifier.Verifier.RegState
import Exoverifier.Verifier.Sync
import Exoverifier.Verifier.Scalar
import Exoverifier.Verifier.ScalarSound
import Exoverifier.Verifier.Adjust
import Exoverifier.Verifier.AdjustSound
import Exoverifier.Data.Trie
import Exoverifier.Sat.Cnf
import Exoverifier.Library.Parser
import Exoverifier.Sat.Parser
import Exoverifier.Sat.RoundTrip
import Exoverifier.Sat.Dimacs
import Exoverifier.Sat.Checker
import Exoverifier.Sat.Verdict
import Exoverifier.Sat.Complete
import Exoverifier.Sat.Dpll
import Exoverifier.Sat.Print
import Exoverifier.Domain.Basic
import Exoverifier.Domain.Bv
import Exoverifier.Domain.Rank
import Exoverifier.Bpf.Basic
import Exoverifier.Bpf.Cfg
import Exoverifier.Absint.Value
import Exoverifier.Absint.Regs
import Exoverifier.Absint.Basic
import Exoverifier.Library.Builder
import Exoverifier.Sat.Factory
import Exoverifier.Library.Numeral
import Exoverifier.Smt.Bitblast
import Exoverifier.Smt.Factory
import Exoverifier.Smt.Reduction
import Exoverifier.Domain.TnumOps
import Exoverifier.Domain.TnumBv
import Exoverifier.Absint.Solver
import Exoverifier.Data.Trien
import Exoverifier.Data.Counter
import Exoverifier.Aig.Basic
import Exoverifier.Aig.Rewrite
import Exoverifier.Aig.Factory
import Exoverifier.Aig.WellFormed
import Exoverifier.Aig.ToCnf
import Exoverifier.Bpf.Flat
import Exoverifier.Bpf.Decode
import Exoverifier.Se.Value
import Exoverifier.Se.Basic
import Exoverifier.Se.Soundness
import Exoverifier.Library.Lockstep
import Exoverifier.Smt.Erasure
import Exoverifier.Se.Erasure
import Exoverifier.Aig.Erasure
import Exoverifier.Se.Decision
