import Mathlib.Data.List.Lex
import Mathlib.Data.Prod.Lex

/-! Paths as `std::filesystem` has them on POSIX: a text, joined by `/`, and compared by
its components, so that different texts can be equal paths. -/
namespace SomeCode
namespace FsPath

def slash : UInt8 := 47

structure Path where
  native : List UInt8
  deriving DecidableEq

namespace Path

def empty : Path := ⟨[]⟩

def hasRootDirectory (p : Path) : Bool := p.native.head? == some slash

def hasFilename (p : Path) : Bool := p.native.getLast?.any (· != slash)

/-- `lhs / rhs`: an absolute path replaces what it is appended to. -/
def append (p q : Path) : Path :=
  if q.hasRootDirectory then q
  else if p.hasFilename then ⟨p.native ++ slash :: q.native⟩
  else ⟨p.native ++ q.native⟩

instance : Div Path := ⟨append⟩

/-- The names after the root directory; a separator at the end makes an empty last one. -/
def components (p : Path) : List (List UInt8) :=
  match p.native.dropWhile (· == slash) with
  | [] => []
  | relative =>
    let parts := relative.splitOn slash
    parts.dropLast.filter (· ≠ []) ++ parts.getLast?.toList

/-- What two paths are compared by: a relative path comes before one with a root
directory, and then the names count, each as a string of bytes. -/
def key (p : Path) : Bool ×ₗ List (List ℕ) :=
  toLex (p.hasRootDirectory,p.components.map fun name => name.map UInt8.toNat)

def Equal (p q : Path) : Prop := p.key = q.key

def Less (p q : Path) : Prop := p.key < q.key

instance (p q : Path) : Decidable (p.Equal q) := inferInstanceAs (Decidable (_ = _))

instance (p q : Path) : Decidable (p.Less q) := inferInstanceAs (Decidable (_ < _))

end Path

/-- A doubled separator makes no difference, one at the end does. -/
example : (⟨[97,47,47,98]⟩ : Path).Equal ⟨[97,47,98]⟩ ∧
    ¬ (⟨[97,47]⟩ : Path).Equal ⟨[97]⟩ ∧ (⟨[97]⟩ : Path).Less ⟨[97,47]⟩ := by decide

end FsPath
end SomeCode
