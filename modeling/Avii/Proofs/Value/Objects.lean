import Avii.Proofs.Outcome
import Avii.Value.Member
import Avii.Value.Operator
import Mathlib.Data.List.Induction

/-!
# Objects in values

Slots that pairs are put into one after the other have the keys of the pairs in the order in which
they first come up, and for each key the value that came with it last (`collapses_setSlots`).

`Value.Nests` says which objects there are in a value, at any depth. Operators and conditions give
values without objects, and the members of a value have no objects that the value does not have. So
objects come from object literals only.
-/

namespace Avii

variable {slots pairs : List (String × Value)} {key : String} {v : Value}

/-! ## Slots -/

theorem keys_setSlot (slots : List (String × Value)) (key : String) (v : Value) :
    (setSlot slots key v).map Prod.fst =
      if key ∈ slots.map Prod.fst then slots.map Prod.fst else slots.map Prod.fst ++ [key] := by
  induction slots with
  | nil => rfl
  | cons p rest ih =>
    rw [setSlot]
    by_cases hp : p.1 = key
    · simp [hp]
    · rw [if_neg hp, List.map_cons, ih]
      by_cases hrest : key ∈ rest.map Prod.fst
      · simp only [hrest, List.map_cons, List.mem_cons, or_true, if_true]
      · simp only [hrest, Ne.symm hp, List.map_cons, List.mem_cons, or_self, if_false,
          List.cons_append]

theorem getSlot?_setSlot (slots : List (String × Value)) (key other : String) (v : Value) :
    getSlot? (setSlot slots key v) other =
      if other = key then some v else getSlot? slots other := by
  unfold getSlot?
  induction slots with
  | nil => by_cases h : other = key <;> simp [setSlot, h, Ne.symm]
  | cons p rest ih =>
    rw [setSlot]
    by_cases hp : p.1 = key
    · by_cases h : other = key
      · simp [hp, h]
      · simp [hp, h, Ne.symm h]
    · by_cases h : p.1 = other
      · simp [h, h ▸ hp]
      · simp [hp, h, ih]

/-- A slot is one that was there or has the value that was put in. -/
theorem mem_setSlot {slots : List (String × Value)} {key : String} {v : Value}
    {p : String × Value} (h : p ∈ setSlot slots key v) : p ∈ slots ∨ p.2 = v := by
  induction slots with
  | nil =>
    rw [setSlot, List.mem_singleton] at h
    exact .inr (by rw [h])
  | cons q rest ih =>
    rw [setSlot] at h
    split at h
    next =>
      rcases List.mem_cons.mp h with rfl | h
      · exact .inr rfl
      · exact .inl (List.mem_cons_of_mem _ h)
    next =>
      rcases List.mem_cons.mp h with rfl | h
      · exact .inl List.mem_cons_self
      · exact (ih h).imp_left (List.mem_cons_of_mem _)

theorem getSlot?_mem {slots : List (String × Value)} {key : String} {v : Value}
    (h : getSlot? slots key = some v) : (key, v) ∈ slots := by
  obtain ⟨p, hp, rfl⟩ := Option.map_eq_some_iff.mp h
  have hkey : p.1 = key := by simpa using List.find?_some hp
  exact hkey ▸ List.mem_of_find?_eq_some hp

/-- Pairs of a key and a value, put into slots one after the other. -/
def setSlots (slots pairs : List (String × Value)) : List (String × Value) :=
  pairs.foldl (fun slots p => setSlot slots p.1 p.2) slots

/-- Slots in which pairs have come together: no key twice, the keys in the order in which they first
come up among the pairs, each with the value that it has last. -/
structure Collapses (pairs slots : List (String × Value)) : Prop where
  distinct : (slots.map Prod.fst).Nodup
  keys : slots.map Prod.fst = (pairs.map Prod.fst).eraseDups
  values : ∀ key, getSlot? slots key = getSlot? pairs.reverse key

/-- One more pair changes the value of its key, or adds a slot at the end. -/
theorem Collapses.setSlot (h : Collapses pairs slots) (p : String × Value) :
    Collapses (pairs ++ [p]) (setSlot slots p.1 p.2) := by
  have hmem : p.1 ∈ slots.map Prod.fst ↔ p.1 ∈ pairs.map Prod.fst := by
    rw [h.keys, List.mem_eraseDups]
  constructor
  · rw [keys_setSlot]
    split
    next => exact h.distinct
    next hp => exact List.nodup_append.mpr ⟨h.distinct, by simp, by
      rintro k hk _ hp' rfl
      exact hp (List.mem_singleton.mp hp' ▸ hk)⟩
  · rw [keys_setSlot, List.map_append, List.eraseDups_append]
    split
    next hp => simp [List.removeAll, hmem.mp hp, h.keys]
    next hp =>
      have hnew : p.1 ∉ pairs.map Prod.fst := fun hp' => hp (hmem.mpr hp')
      simp only [List.map_singleton, List.removeAll, List.filter_cons, List.elem_eq_mem, hnew,
        decide_false, Bool.not_false, if_true, List.filter_nil, h.keys]
      rfl
  · intro key
    rw [getSlot?_setSlot, h.values, List.reverse_append]
    unfold getSlot?
    by_cases hk : key = p.1
    · simp [hk]
    · simp [hk, Ne.symm hk]

theorem collapses_setSlots (pairs : List (String × Value)) :
    Collapses pairs (setSlots [] pairs) := by
  induction pairs using List.reverseRecOn with
  | nil => exact ⟨List.nodup_nil, rfl, fun _ => rfl⟩
  | append_singleton pairs p ih =>
    have hlast : setSlots [] (pairs ++ [p]) = Avii.setSlot (setSlots [] pairs) p.1 p.2 := by
      simp [setSlots, List.foldl_append]
    rw [hlast]
    exact ih.setSlot p

/-! ## Objects -/

/-- An object with given slots is in a value, at any depth; it is not if it can only be had by
calling a closure in the value. -/
inductive Value.Nests : Value → List (String × Value) → Prop where
  | self (slots : List (String × Value)) : Nests (.object slots) slots
  | item {vs : List Value} {v : Value} {slots : List (String × Value)} (hv : v ∈ vs)
      (h : Nests v slots) : Nests (.array vs) slots
  | slot {outer : List (String × Value)} {p : String × Value} {slots : List (String × Value)}
      (hp : p ∈ outer) (h : Nests p.2 slots) : Nests (.object outer) slots

namespace Value

/-- There is no object in a value. -/
def Plain (v : Value) : Prop :=
  ∀ slots, ¬ v.Nests slots

theorem plain_number (x : Binary64) : Plain (.number x) := fun _ h => nomatch h

theorem plain_string (s : String) : Plain (.string s) := fun _ h => nomatch h

theorem plain_bool (b : Bool) : Plain (.bool b) := fun _ h => nomatch h

theorem plain_strings (ss : List String) : Plain (.array (ss.map .string)) := by
  intro slots h
  cases h with
  | item hv h =>
    obtain ⟨s, -, rfl⟩ := List.mem_map.mp hv
    cases h

/-- Operators give values without objects. -/
theorem binary_plain {sign : String} {l r : Value} (h : binary sign l r = .ok v) : v.Plain := by
  unfold binary at h
  split at h
  next => cases h
  next op _ =>
    split at h
    next x y =>
      obtain ⟨z, -, rfl⟩ := map_eq_ok.mp h
      exact plain_number z
    next =>
      split at h
      next =>
        cases h
        exact plain_string _
      next =>
        split at h
        next =>
          cases h
          exact plain_strings _
        next => cases h

theorem equality_plain {sign : String} {type : ValueType} {b : Bool}
    (h : equality sign type b = .ok v) : v.Plain := by
  unfold equality at h
  split at h
  next =>
    cases h
    exact plain_bool _
  next =>
    split at h
    next =>
      cases h
      exact plain_bool _
    next => cases h

/-- Conditions give truth values. -/
theorem condition_plain {sign : String} {l r : Value} (h : condition sign l r = .ok v) :
    v.Plain := by
  unfold condition at h
  split at h
  next =>
    split at h
    next =>
      cases h
      exact plain_bool _
    next =>
      split at h
      next =>
        cases h
        exact plain_bool _
      next => exact equality_plain h
  next => exact equality_plain h
  next => exact equality_plain h
  next =>
    cases h
    exact plain_bool _

theorem length_plain {w : Value} (h : w.length = .ok v) : v.Plain := by
  unfold length at h
  split at h <;> cases h <;> exact plain_number _

/-- The objects in a member of a value are in the value. -/
theorem member_nests {target k : Value} (h : target.member k = .ok v) (hv : v.Nests slots) :
    target.Nests slots := by
  unfold member at h
  split at h
  next outer =>
    obtain ⟨key, -, rfl⟩ := map_eq_ok.mp h
    cases hs : getSlot? outer key with
    | none => simp only [hs, Option.getD_none] at hv; cases hv
    | some w =>
      rw [hs, Option.getD_some] at hv
      exact .slot (getSlot?_mem hs) hv
  next items =>
    obtain ⟨i, -, rfl⟩ := map_eq_ok.mp h
    cases hi : i.bind (items[·]?) with
    | none => simp only [hi, Option.getD_none] at hv; cases hv
    | some w =>
      rw [hi, Option.getD_some] at hv
      obtain ⟨j, -, hj⟩ := Option.bind_eq_some_iff.mp hi
      exact .item (List.mem_of_getElem? hj) hv
  next text =>
    obtain ⟨i, -, rfl⟩ := map_eq_ok.mp h
    cases hi : i.bind (Text.charAt? text) with
    | none => simp only [hi, Option.map_none, Option.getD_none] at hv; cases hv
    | some c => simp only [hi, Option.map_some, Option.getD_some] at hv; cases hv
  next => cases h

end Value

end Avii
