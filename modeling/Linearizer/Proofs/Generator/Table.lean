import Linearizer.Generator.Switch
import Mathlib.Data.Option.Basic

/-!
# The entries of jump tables

A table is chosen only where every case has an integer, and spans the integers of all cases. So each
case has an entry, which leads to its target when no earlier case has the same integer.

* `TableRange.ofCases?_eq_some`: what is known of a switch that a table is chosen for;
* `TableRange.mem_of_mem_targets`: the entries lead to targets of the switch;
* `TableRange.target_mem_targets`: the live targets of a switch without equal cases are entries.
-/

namespace Linearizer
namespace TableRange

variable {g : Graph} {cases : List Case} {default : BlockId} {range : TableRange}

theorem ofCases?_eq_some {options : Options} {scope : Scope} {value : Expr}
    (h : ofCases? options scope value cases default = some range) :
    options.jumpTables = true ∧
      (∃ ints, cases.mapM Case.int? = some ints ∧ spanning? ints = some range) ∧
      (∀ c ∈ cases, scope.contains c.target = true) ∧ scope.contains default = true := by
  unfold ofCases? at h
  simp only [Option.bind_eq_bind, Option.bind_eq_some_iff, Option.guard_eq_some', Option.pure_def,
    List.all_append, List.all_map, List.all_cons, List.all_nil, Bool.and_true] at h
  obtain ⟨_, hg, ints, hi, range', hs, _, -, _, hw, hr⟩ := h
  cases hr
  simp only [Bool.and_eq_true, List.all_eq_true, Function.comp_apply] at hg hw
  exact ⟨hg.1.1, ⟨ints, hi, hs⟩, hw⟩

theorem hint_of_ofCases? {options : Options} {scope : Scope} {value : Expr}
    (h : ofCases? options scope value cases default = some range) : value.hint = .only .int64 := by
  unfold ofCases? at h
  simp only [Option.bind_eq_bind, Option.bind_eq_some_iff, Option.guard_eq_some'] at h
  obtain ⟨_, hg, -⟩ := h
  simp only [Bool.and_eq_true, decide_eq_true_eq] at hg
  exact hg.2

theorem mem_of_mem_targets {b : BlockId} (h : b ∈ range.targets g cases default) :
    (∃ c ∈ cases, b = c.target) ∨ b = default := by
  unfold targets at h
  obtain ⟨i, -, rfl⟩ := List.mem_map.mp h
  split
  · rename_i c hc
    split
    · exact .inl ⟨c, List.mem_of_find?_eq_some hc, rfl⟩
    · exact .inr rfl
  · exact .inr rfl

/-! ## The range of a table -/

/-- What a choice between two integers is bounded by, their repeated choice is. -/
theorem foldl_bound {r : Int → Int → Prop} (refl : ∀ a, r a a)
    (trans : ∀ a b c, r a b → r b c → r a c) {f : Int64 → Int64 → Int64}
    (hf : ∀ a b, r (f a b).toInt a.toInt ∧ r (f a b).toInt b.toInt) (n : Int64)
    (rest : List Int64) : ∀ m ∈ n :: rest, r (rest.foldl f n).toInt m.toInt := by
  induction rest generalizing n with
  | nil => simpa using refl n.toInt
  | cons k rest ih =>
    intro m hm
    have first := ih (f n k) (f n k) List.mem_cons_self
    rcases List.mem_cons.mp hm with rfl | hm
    · exact trans _ _ _ first (hf m k).1
    rcases List.mem_cons.mp hm with rfl | hm
    · exact trans _ _ _ first (hf n m).2
    · exact ih (f n k) m (List.mem_cons_of_mem _ hm)

theorem toInt_min_le (a b : Int64) : (min a b).toInt ≤ a.toInt ∧ (min a b).toInt ≤ b.toInt := by
  rw [← Int64.le_iff_toInt_le, ← Int64.le_iff_toInt_le]
  exact ⟨Std.min_le_left, Std.min_le_right⟩

theorem le_toInt_max (a b : Int64) : a.toInt ≤ (max a b).toInt ∧ b.toInt ≤ (max a b).toInt := by
  have hmax : max a b = if a ≤ b then b else a := rfl
  rw [hmax]
  split
  · rename_i h
    exact ⟨Int64.le_iff_toInt_le.mp h, Int.le_refl _⟩
  · rename_i h
    rw [Int64.le_iff_toInt_le] at h
    omega

/-- The integers that a range spans lie in it. -/
theorem spanning?_bounds {ints : List Int64} (h : spanning? ints = some range) {n : Int64}
    (hn : n ∈ ints) :
    range.least.toInt ≤ n.toInt ∧ n.toInt < range.least.toInt + range.size := by
  cases ints with
  | nil => cases hn
  | cons k rest =>
    cases h
    have hmin := foldl_bound Int.le_refl (fun _ _ _ => Int.le_trans) toInt_min_le k rest n hn
    have hmax := foldl_bound (r := fun a b => b ≤ a) Int.le_refl
      (fun _ _ _ h h' => Int.le_trans h' h) le_toInt_max k rest n hn
    dsimp only at hmax ⊢
    omega

/-! ## The entries of a table -/

/-- Of cases without equal integers, the first one with an integer is the only one. -/
theorem find?_int {c : Case} {n : Int64} (hd : (cases.filterMap Case.int?).Nodup) (hc : c ∈ cases)
    (hn : c.int? = some n) :
    cases.find? (fun c' => c'.int?.map Int64.toInt = some n.toInt) = some c := by
  induction cases with
  | nil => cases hc
  | cons a rest ih =>
    by_cases ha : a.int? = some n
    · rw [List.find?_cons_of_pos (by simp [ha])]
      rcases List.mem_cons.mp hc with rfl | hc
      · rfl
      · -- A second case with the integer would be in the list of integers twice.
        rw [List.filterMap_cons_some ha] at hd
        exact absurd (List.mem_filterMap.mpr ⟨c, hc, hn⟩) (List.nodup_cons.mp hd).1
    · have hne : ¬ a.int?.map Int64.toInt = some n.toInt := by
        intro h
        obtain ⟨m, hm, he⟩ := Option.map_eq_some_iff.mp h
        exact ha (by rw [hm, Int64.toInt_inj.mp he])
      rw [List.find?_cons_of_neg (by simpa using hne)]
      have hc : c ∈ rest := (List.mem_cons.mp hc).resolve_left (by rintro rfl; exact ha hn)
      exact ih (hd.sublist ((List.sublist_cons_self a rest).filterMap _)) hc

theorem int?_of_mapM {ints : List Int64} (h : cases.mapM Case.int? = some ints) {c : Case}
    (hc : c ∈ cases) : ∃ n ∈ ints, c.int? = some n := by
  induction cases generalizing ints with
  | nil => cases hc
  | cons a rest ih =>
    simp only [List.mapM_cons, Option.bind_eq_bind, Option.bind_eq_some_iff, Option.pure_def,
      Option.some.injEq] at h
    obtain ⟨n, hn, tail, ht, rfl⟩ := h
    rcases List.mem_cons.mp hc with rfl | hc
    · exact ⟨n, List.mem_cons_self, hn⟩
    · obtain ⟨m, hm, hcm⟩ := ih ht hc
      exact ⟨m, List.mem_cons_of_mem _ hm, hcm⟩

/-- The live target of a case is an entry, when no two cases have the same integer. -/
theorem target_mem_targets {ints : List Int64} (hi : cases.mapM Case.int? = some ints)
    (hs : spanning? ints = some range) (hd : (cases.filterMap Case.int?).Nodup) {c : Case}
    (hc : c ∈ cases) (live : g.isLive c.target = true) :
    c.target ∈ range.targets g cases default := by
  obtain ⟨n, hn, hcn⟩ := int?_of_mapM hi hc
  obtain ⟨hlo, hhi⟩ := spanning?_bounds hs hn
  obtain ⟨i, hin⟩ : ∃ i : Nat, range.least.toInt + i = n.toInt :=
    ⟨(n.toInt - range.least.toInt).toNat, by omega⟩
  refine List.mem_map.mpr ⟨i, List.mem_range.mpr (by omega), ?_⟩
  rw [hin, find?_int hd hc hcn]
  simp [live]

end TableRange
end Linearizer
