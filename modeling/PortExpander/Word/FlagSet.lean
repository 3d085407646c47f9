import PortExpander.Word.Byte

/-!
# Sets of flags

A flag is one bit of a word, and a set of flags is a word. A word may hold bits that no flag is named for; they are kept
by every operation, and a `Vocabulary` tells them apart from the named ones and gives the text of a set.
-/

namespace PortExpander

/-- A set of flags held in a word of `w` bits. -/
structure FlagSet (w : Nat) where
  bits : BitVec w
  deriving DecidableEq

namespace FlagSet

variable {w : Nat}

instance : EmptyCollection (FlagSet w) := ⟨⟨0⟩⟩

instance : Inhabited (FlagSet w) := ⟨∅⟩

instance : Union (FlagSet w) := ⟨fun a b => ⟨a.bits ||| b.bits⟩⟩

instance : Inter (FlagSet w) := ⟨fun a b => ⟨a.bits &&& b.bits⟩⟩

/-- `a \ b` is what `a` holds and `b` does not. -/
instance : SDiff (FlagSet w) := ⟨fun a b => ⟨a.bits &&& ~~~b.bits⟩⟩

/-- The set of the one flag at bit `i`. -/
def flag (i : Nat) : FlagSet w := ⟨BitVec.twoPow w i⟩

/-- Whether every bit of `b` is in `a`. -/
def contains (a b : FlagSet w) : Bool := a.bits &&& b.bits == b.bits

/-- Whether some bit is in both sets. -/
def intersects (a b : FlagSet w) : Bool := a.bits &&& b.bits != 0

/-- The bits that are in one of the two sets only. -/
def symmDiff (a b : FlagSet w) : FlagSet w := ⟨a.bits ^^^ b.bits⟩

/-- Whether no bit is in the set. -/
def isEmpty (a : FlagSet w) : Bool := a.bits == 0

/-- A set contains a flag if it has the flag's bit. -/
theorem contains_flag {a : FlagSet w} {i : Nat} (hi : i < w) : a.contains (flag i) = a.bits.getLsbD i := by
  rw [Bool.eq_iff_iff, contains, beq_iff_eq]
  constructor
  · intro h
    have := congrArg (·.getLsbD i) h
    simpa [flag, hi] using this
  · intro h
    ext j hj
    by_cases hij : i = j
    · subst hij
      simp_all [flag]
    · simp [flag, Ne.symm hij]

end FlagSet

/-- The named flags of a kind of set, in order of definition. -/
structure Vocabulary (w : Nat) where
  title : String
  flags : List (String × FlagSet w)

namespace Vocabulary

variable {w : Nat} (v : Vocabulary w)

/-- The set of all named flags. -/
def all : FlagSet w :=
  v.flags.foldl (fun acc f => acc ∪ f.2) ∅

/-- A set without the bits that have no name. -/
def truncate (a : FlagSet w) : FlagSet w := a ∩ v.all

/-- A set whose bits all have names, if this is one. -/
def known? (a : FlagSet w) : Option (FlagSet w) :=
  if v.all.contains a then some a else none

/-- The named flags that are not in a set. -/
def complement (a : FlagSet w) : FlagSet w := v.all \ a

/-- Whether every named flag is in a set. -/
def isAll (a : FlagSet w) : Bool := a.contains v.all

/-- The names of the flags in a set, in order of definition. -/
def names (a : FlagSet w) : List String :=
  (v.flags.filter fun f => a.contains f.2).map (·.1)

/-- The parts of a set's text: the names of its flags, then the bits without a name as one number. An empty set has the
one part `0x0`. -/
def parts (a : FlagSet w) : List String :=
  let rest := a \ v.all
  let parts := if rest.isEmpty then v.names a else v.names a ++ ["0x" ++ hexDigits rest.bits.toNat]
  if parts.isEmpty then ["0x0"] else parts

/-- The text of a set: the title, and the parts between bars. -/
def text (a : FlagSet w) : String :=
  v.title ++ "(" ++ " | ".intercalate (v.parts a) ++ ")"

end Vocabulary

end PortExpander
