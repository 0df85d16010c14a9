import Mathlib.Data.List.Perm.Basic
import Mathlib.Data.List.Range
import Linearizer.Proofs.Generator.Change

/-!
# What local variables are declared for

A routine declares a local variable for one of four things: a variable that lives in the frame, a
value that is held for a moment, an enumerator, or the value of a return from a protected region.

- **Allotments** (`Allotment`, `State.allotment`): the local variables by what they are for.
- **Growth** (`Allotment.Grows`): at most one more is allotted, and it is the one declared last.
- **Well-formedness** (`Allotment.Apart`): each local variable is for one thing, and there is one
  for each encoding that is held for a moment and one for each enumeration. Growth keeps this
  (`Grows.apart`).
-/

namespace Linearizer

/-- The local variable that an element loads, stores or takes the address of. -/
def Insn.slot? : Insn → Option LocalId
  | .ldloc slot | .stloc slot | .ldloca slot => some slot
  | _ => none

/-- The local variable that a place is. -/
def Place.slot? (p : Place) : Option LocalId :=
  match p.storage with
  | .slot id => some id
  | _ => none

/-- The local variables by what they are for, and how many have been declared. -/
structure Allotment where
  /-- Where the variables of the routine are stored. -/
  places : List Place
  /-- Those that hold a value for a moment. -/
  temps : List (Encoding × LocalId)
  /-- Those that hold the enumerators started in blocks. -/
  enumerators : List (BlockId × LocalId)
  /-- The one that returns from protected regions share, with the label of their exit. -/
  returnSlot : Option (LocalId × Label)
  /-- How many local variables there are. -/
  count : Nat

/-- What the local variables of a state are for. -/
def State.allotment (s : State) : Allotment :=
  ⟨s.places, s.temps, s.enumerators, s.returnSlot, s.tape.listing.locals.size⟩

namespace Allotment

/-- The local variables that are variables of the routine. -/
def homes (a : Allotment) : List LocalId := a.places.filterMap Place.slot?

/-- The local variables that hold a value for a moment. -/
def spills (a : Allotment) : List LocalId := a.temps.map Prod.snd

/-- The local variables that hold an enumerator. -/
def iterators (a : Allotment) : List LocalId := a.enumerators.map Prod.snd

/-- The local variable that returns share, if there is one. -/
def exits (a : Allotment) : List LocalId := a.returnSlot.toList.map Prod.fst

/-- The local variables that hold a value for longer. -/
def lasting (a : Allotment) : List LocalId := a.homes ++ a.iterators ++ a.exits

/-- All local variables that are for something. -/
def slots (a : Allotment) : List LocalId := a.spills ++ a.lasting

/-- Each local variable is for one thing (module doc). -/
structure Apart (a : Allotment) : Prop where
  all : a.slots.Perm (List.range a.count)
  encodings : (a.temps.map Prod.fst).Nodup
  blocks : (a.enumerators.map Prod.fst).Nodup

/-- At most one local variable more is for something (module doc). -/
inductive Grows (a : Allotment) : Allotment → Prop
  | same : Grows a a
  /-- A variable that is stored elsewhere. -/
  | elsewhere {p : Place} (hp : p.slot? = none) : Grows a { a with places := a.places ++ [p] }
  | frame {p : Place} (hp : p.slot? = some a.count) :
      Grows a { a with places := a.places ++ [p], count := a.count + 1 }
  | spill {e : Encoding} (new : a.temps.lookup e = none) :
      Grows a { a with temps := (e, a.count) :: a.temps, count := a.count + 1 }
  | enumerator {b : BlockId} (new : b ∉ a.enumerators.map Prod.fst) :
      Grows a { a with enumerators := (b, a.count) :: a.enumerators, count := a.count + 1 }
  | exit {label : Label} (new : a.returnSlot = none) :
      Grows a { a with returnSlot := some (a.count, label), count := a.count + 1 }

/-! ## Growth -/

namespace Grows

variable {a a' : Allotment}

theorem enumerators_subset (h : a.Grows a') : a.enumerators ⊆ a'.enumerators := by
  cases h <;> simp

/-- Local variables that last stay allotted. -/
theorem lasting_subset (h : a.Grows a') : a.lasting ⊆ a'.lasting := by
  have homes : a.homes ⊆ a'.homes := by
    cases h <;> simp [homes]
  have iterators : a.iterators ⊆ a'.iterators := List.map_subset _ h.enumerators_subset
  have exits : a.exits ⊆ a'.exits := by
    cases h with
    | exit new => simp [exits, new]
    | _ => simp [exits]
  intro slot mem
  simp only [lasting, List.mem_append] at mem ⊢
  exact mem.imp (Or.imp (@homes slot) (@iterators slot)) (@exits slot)

/-- What is new is the local variable that was declared. -/
theorem slots_eq (h : a.Grows a') : a'.count = a.count ∧ a'.slots = a.slots ∨
    a'.count = a.count + 1 ∧ a'.slots.Perm (a.count :: a.slots) := by
  have middle : (a.spills ++ a.homes ++ a.count :: (a.iterators ++ a.exits)).Perm
      (a.count :: (a.spills ++ a.homes ++ (a.iterators ++ a.exits))) := List.perm_middle
  cases h with
  | same => exact .inl ⟨rfl, rfl⟩
  | elsewhere hp =>
    exact .inl ⟨rfl, by simp [slots, lasting, homes, spills, iterators, exits, hp]⟩
  | frame hp =>
    refine .inr ⟨rfl, ?_⟩
    simpa [slots, lasting, homes, spills, iterators, exits, hp] using middle
  | spill => exact .inr ⟨rfl, .refl _⟩
  | enumerator =>
    refine .inr ⟨rfl, ?_⟩
    simpa [slots, lasting, homes, spills, iterators, exits] using middle
  | exit new =>
    have last : (a.spills ++ a.homes ++ a.iterators ++ [a.count]).Perm
        (a.count :: (a.spills ++ a.homes ++ a.iterators)) := List.perm_append_singleton _ _
    refine .inr ⟨rfl, ?_⟩
    simpa [slots, lasting, homes, spills, iterators, exits, new] using last

/-- So do all. -/
theorem slots_subset (h : a.Grows a') : a.slots ⊆ a'.slots := by
  intro slot mem
  obtain ⟨-, hslots⟩ | ⟨-, hslots⟩ := h.slots_eq
  · rwa [hslots]
  · exact hslots.mem_iff.mpr (.tail _ mem)

/-- New local variables are different from the others. -/
theorem apart (h : a.Grows a') (ha : a.Apart) : a'.Apart := by
  refine ⟨?_, ?_, ?_⟩
  · obtain ⟨hcount, hslots⟩ | ⟨hcount, hslots⟩ := h.slots_eq
    · rw [hcount, hslots]
      exact ha.all
    · rw [hcount, List.range_succ]
      exact (hslots.trans (ha.all.cons _)).trans (List.perm_append_singleton _ _).symm
  · cases h with
    | spill new =>
      refine List.nodup_cons.mpr ⟨fun mem => ?_, ha.encodings⟩
      obtain ⟨x, hx, rfl⟩ := List.mem_map.mp mem
      simpa using List.lookup_eq_none_iff.mp new x hx
    | _ => exact ha.encodings
  · cases h with
    | enumerator new => exact List.nodup_cons.mpr ⟨new, ha.blocks⟩
    | _ => exact ha.blocks

end Grows

/-! ## Different things -/

namespace Apart

variable {a a' : Allotment} {slot : LocalId}

theorem nodup (h : a.Apart) : a.slots.Nodup := h.all.nodup_iff.mpr List.nodup_range

theorem mem_slots (h : a.Apart) : slot ∈ a.slots ↔ slot < a.count :=
  h.all.mem_iff.trans List.mem_range

/-- A local variable that holds a value for a moment holds none for longer. -/
theorem not_lasting (h : a.Apart) (hs : slot ∈ a.spills) : slot ∉ a.lasting := by
  have disjoint := (List.nodup_append.mp h.nodup).2.2
  exact fun hl => disjoint slot hs slot hl rfl

/-- What was for something else before does not hold a value for a moment later. -/
theorem spill_of_grows (h : a'.Apart) (hg : a.Grows a') (old : slot ∈ a.slots)
    (hs : slot ∈ a'.spills) : slot ∈ a.spills :=
  (List.mem_append.mp old).resolve_right fun hl => h.not_lasting hs (hg.lasting_subset hl)

end Apart
end Allotment

/-! ## The changes of the state -/

namespace State

variable (s : State) (b : BlockId)

@[simp] theorem temps_unqueue : (s.unqueue b).temps = s.temps := by
  unfold unqueue
  split <;> rfl

@[simp] theorem allotment_written (i : Insn) : (s.written i).allotment = s.allotment := by
  simp [allotment, written, Tape.locals_put]

@[simp] theorem allotment_exited : (s.exited b).allotment = s.allotment := by
  simp [allotment, exited, Tape.locals_put]

@[simp] theorem allotment_revisited : (s.revisited b).allotment = s.allotment := by
  simp [allotment, revisited, exited, Tape.locals_put]

@[simp] theorem allotment_branched (o : BranchOp) (l : Label) :
    (s.branched o l).allotment = s.allotment := by
  simp [allotment, branched, Tape.locals_put]

@[simp] theorem allotment_skipped (o : BranchOp) : (s.skipped o).allotment = s.allotment := by
  simp [allotment, skipped, branched, Tape.locals_put]

@[simp] theorem allotment_tabled (targets : List BlockId) :
    (s.tabled targets).allotment = s.allotment := by
  simp [allotment, tabled, Tape.locals_put]

@[simp] theorem allotment_entered (viaEdge : Bool) :
    (s.entered viaEdge b).allotment = s.allotment := by
  simp [allotment, entered, Tape.locals_put]

@[simp] theorem allotment_opened (kind : ScopeKind) (first hi : BlockId) :
    (s.opened kind first hi).allotment = s.allotment := by
  simp [allotment, opened]

@[simp] theorem allotment_claimed : (s.claimed b).allotment = s.allotment := by
  simp [allotment, claimed]

end State
end Linearizer
