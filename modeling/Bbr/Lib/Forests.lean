import Mathlib.Data.List.Nodup
import Mathlib.Data.List.Perm.Basic

/-!
# Groups of items and their outline

Items lie in nested groups, each where its list of keys says. A group whose only member is another
group is merged with it; the outline lists what is left in depth-first order and passes over the
members of closed groups.
-/
namespace Bbr.Lib

/-- Siblings in their order: items, and groups with their members. -/
inductive Forest (κ ι : Type) where
  | nil
  | item (a : ι) (rest : Forest κ ι)
  | group (key : κ) (members rest : Forest κ ι)
  deriving DecidableEq, Repr

namespace Forest

variable {κ ι : Type}

def items : Forest κ ι → List ι
  | nil => []
  | item a rest => a :: items rest
  | group _ members rest => items members ++ items rest

def size : Forest κ ι → Nat
  | nil => 0
  | item _ rest => size rest + 1
  | group _ members rest => size members + size rest + 1

def chain : List κ → ι → Forest κ ι
  | [], a => item a nil
  | key :: keys, a => group key (chain keys a) nil

/-- An item goes behind the members of its group, which is added when there is none. -/
def put [DecidableEq κ] : Forest κ ι → List κ → ι → Forest κ ι
  | nil, keys, a => chain keys a
  | item b rest, keys, a => item b (put rest keys a)
  | group key members rest, [], a => group key members (put rest [] a)
  | group key members rest, next :: keys, a =>
    if key = next then group key (put members keys a) rest
    else group key members (put rest (next :: keys) a)

/-- An item or a group as a sibling. -/
def cons : ι ⊕ κ × Forest κ ι → Forest κ ι → Forest κ ι
  | .inl a, rest => item a rest
  | .inr (key, members), rest => group key members rest

def label : ι ⊕ κ × Forest κ ι → ι ⊕ κ
  | .inl a => .inl a
  | .inr (key, _) => .inr key

section Siblings

variable (less : ι ⊕ κ → ι ⊕ κ → Bool)

def allGreater (node : ι ⊕ κ × Forest κ ι) : Forest κ ι → Bool
  | nil => true
  | item b rest => less (label node) (.inl b) && allGreater node rest
  | group key _ rest => less (label node) (.inr key) && allGreater node rest

/-- From the end in front of the siblings that are greater, up to the first that is not. -/
def insertSorted (node : ι ⊕ κ × Forest κ ι) : Forest κ ι → Forest κ ι
  | nil => cons node nil
  | item b rest =>
    if allGreater less node (item b rest) then cons node (item b rest)
    else item b (insertSorted node rest)
  | group key members rest =>
    if allGreater less node (group key members rest) then cons node (group key members rest)
    else group key members (insertSorted node rest)

def sortOnto : Forest κ ι → Forest κ ι → Forest κ ι
  | sorted, nil => sorted
  | sorted, item a rest => sortOnto (insertSorted less (.inl a) sorted) rest
  | sorted, group key members rest =>
    sortOnto (insertSorted less (.inr (key, sortOnto nil members)) sorted) rest

end Siblings

/-- A group whose only member is a group stands for that one. -/
def chainEnd : κ → Forest κ ι → κ × Forest κ ι
  | _, group key members nil => chainEnd key members
  | key, members => (key, members)

structure Row (κ ι : Type) where
  parent : Option κ
  depth : Nat
  node : κ ⊕ ι
  deriving DecidableEq, Repr

theorem chainEnd_self (key : κ) {members : Forest κ ι}
    (h : ∀ next inner, members = group next inner nil → False) :
    chainEnd key members = (key, members) := by
  unfold chainEnd
  split
  · exact (h _ _ rfl).elim
  · rfl

theorem chainEnd_size (key : κ) (members : Forest κ ι) :
    (chainEnd key members).2.size ≤ members.size := by
  induction key, members using chainEnd.induct with
  | case1 _ key members ih =>
    rw [chainEnd, size]
    omega
  | case2 key members h =>
    exact Nat.le_of_eq (by rw [chainEnd_self key h])

def outline (closed : κ → Bool) : Forest κ ι → Option κ → Nat → List (Row κ ι)
  | nil, _, _ => []
  | item a rest, parent, depth => ⟨parent, depth, .inr a⟩ :: outline closed rest parent depth
  | group key members rest, parent, depth =>
    ⟨parent, depth, .inl (chainEnd key members).1⟩ ::
      ((if closed (chainEnd key members).1 then []
        else outline closed (chainEnd key members).2 (some (chainEnd key members).1) (depth + 1)) ++
        outline closed rest parent depth)
termination_by forest => forest.size
decreasing_by
  · rw [size]; omega
  · have := chainEnd_size key members
    rw [size]
    omega
  · rw [size]; omega

end Forest

end Bbr.Lib
