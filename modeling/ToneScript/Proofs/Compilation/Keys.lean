import Mathlib.Data.List.Nodup
import ToneScript.Proofs.Compilation.Native
import ToneScript.Proofs.Outline.Extent
import ToneScript.Proofs.Syntax.Fresh
import ToneScript.Proofs.Typing.Program

/-! The keys of a program: its blocks have keys of their own, and so have its functions, whether the source can be
read without errors or not. -/
namespace ToneScript

namespace Opening.Laid

variable {lo hi : Nat} {t : SymbolTable} {program : Program}

theorem ne_rootBlock (h : Laid lo hi program.openings t) (hhi : hi < UInt64.size) :
    ∀ o ∈ program.openings, o.key ≠ rootBlock :=
  fun o ho => Resolution.ne_rootBlock (h.between o ho).2 hhi

end Opening.Laid

namespace Resolution

open SymbolTable (Reading)

end Resolution

end ToneScript
