import Avii.Value.Member
import Avii.Value.Operator
import Mathlib.Data.List.Forall2

/-!
# Values that differ in closures

Two values are linked if they differ at most in the closures that occur in them, and these are
linked by a given relation (`Value.Linked`). A program sees of a closure its name and its parameters
only, short of calling it. So if the relation keeps these (`KeepsHeads`), what is computed from
linked values is linked too: they have one type and one displayed form, which takes the same steps,
and members, lengths and the results of operators are linked, or the same mistake (`ResultLinked`).
-/

namespace Avii

/-- Linked closures have one name and the same parameters. -/
def Closure.KeepsHeads (K : Closure → Closure → Prop) : Prop :=
  ∀ {c d}, K c d → d.name = c.name ∧ d.params = c.params

/-- Two operations have linked results, or make the same mistake. -/
def ResultLinked {α β : Type} (good : α → β → Prop) : Except Fault α → Except Fault β → Prop
  | .ok a, .ok b => good a b
  | .error f, .error g => g = f
  | _, _ => False

/-- What is made of the same result is linked. -/
theorem ResultLinked.map {α β γ : Type} {good : β → γ → Prop} {f : α → β} {g : α → γ}
    (r : Except Fault α) (h : ∀ a, good (f a) (g a)) : ResultLinked good (r.map f) (r.map g) := by
  cases r with
  | ok a => exact h a
  | error e => rfl

namespace Value

mutual

/-- A value that differs from another only in its closures, which are linked. -/
inductive Linked (K : Closure → Closure → Prop) : Value → Value → Prop where
  | null : Linked K .null .null
  | number (x : Binary64) : Linked K (.number x) (.number x)
  | string (s : String) : Linked K (.string s) (.string s)
  | bool (b : Bool) : Linked K (.bool b) (.bool b)
  | array {vs ws : List Value} (h : List.Forall₂ (Linked K) vs ws) :
      Linked K (.array vs) (.array ws)
  | object {ps qs : List (String × Value)} (h : List.Forall₂ (SlotLinked K) ps qs) :
      Linked K (.object ps) (.object qs)
  | closure {c d : Closure} (h : K c d) : Linked K (.closure c) (.closure d)
  | native (f : Native) : Linked K (.native f) (.native f)

/-- A slot with the same key as another and a value linked to that of the other. -/
inductive SlotLinked (K : Closure → Closure → Prop) : String × Value → String × Value → Prop where
  | slot {key : String} {v w : Value} (h : Linked K v w) : SlotLinked K (key, v) (key, w)

end

variable {K K' : Closure → Closure → Prop} {v w k k' : Value}

/-! ## What linked values have in common -/

/-- Linked values have one type. -/
theorem Linked.type (h : Linked K v w) : w.type = v.type := by
  cases h <;> rfl

/-- Both count as texts, or neither. -/
theorem Linked.isTextual (h : Linked K v w) : w.isTextual = v.isTextual := by
  cases h <;> rfl

mutual

/-- They are displayed in the same way, as closures show only their heads. -/
theorem Linked.display (hK : Closure.KeepsHeads K) :
    ∀ {v w : Value}, Linked K v w → w.display = v.display
  | .array _, _, .array h => by rw [Value.display, Value.display, displayItems_linked hK h]
  | .object _, _, .object h => by rw [Value.display, Value.display, displaySlots_linked hK h]
  | .closure _, _, .closure h => by
    rw [Value.display, Value.display, Closure.describe, Closure.describe, (hK h).1, (hK h).2]
  | _, _, .null | _, _, .number _ | _, _, .string _ | _, _, .bool _ | _, _, .native _ => rfl

theorem displayItems_linked (hK : Closure.KeepsHeads K) : ∀ {vs ws : List Value},
    List.Forall₂ (Linked K) vs ws → displayItems ws = displayItems vs
  | [], _, .nil => rfl
  | _ :: _, _, .cons h hs => by
    rw [displayItems, displayItems, h.display hK, displayItems_linked hK hs]

theorem displaySlots_linked (hK : Closure.KeepsHeads K) : ∀ {ps qs : List (String × Value)},
    List.Forall₂ (SlotLinked K) ps qs → displaySlots qs = displaySlots ps
  | [], _, .nil => rfl
  | (_, _) :: _, _, .cons (.slot h) hs => by
    rw [displaySlots, displaySlots, h.display hK, displaySlots_linked hK hs]

end

mutual

/-- To display them takes equally many steps. -/
theorem Linked.displaySteps : ∀ {v w : Value}, Linked K v w → w.displaySteps = v.displaySteps
  | .array _, _, .array h => by
    rw [Value.displaySteps, Value.displaySteps, mostDisplaySteps_linked h]
  | .object _, _, .object h => by
    rw [Value.displaySteps, Value.displaySteps, mostSlotDisplaySteps_linked h]
  | .closure _, _, .closure _ => rfl
  | _, _, .null | _, _, .number _ | _, _, .string _ | _, _, .bool _ | _, _, .native _ => rfl

theorem mostDisplaySteps_linked : ∀ {vs ws : List Value}, List.Forall₂ (Linked K) vs ws →
    mostDisplaySteps ws = mostDisplaySteps vs
  | [], _, .nil => rfl
  | _ :: _, _, .cons h hs => by
    rw [mostDisplaySteps, mostDisplaySteps, h.displaySteps, mostDisplaySteps_linked hs]

theorem mostSlotDisplaySteps_linked : ∀ {ps qs : List (String × Value)},
    List.Forall₂ (SlotLinked K) ps qs → mostSlotDisplaySteps qs = mostSlotDisplaySteps ps
  | [], _, .nil => rfl
  | (_, _) :: _, _, .cons (.slot h) hs => by
    rw [mostSlotDisplaySteps, mostSlotDisplaySteps, h.displaySteps, mostSlotDisplaySteps_linked hs]

end

mutual

/-- What is linked by a relation is linked by a weaker one. -/
theorem Linked.mono (hK : ∀ {c d}, K c d → K' c d) : ∀ {v w : Value}, Linked K v w → Linked K' v w
  | .array _, _, .array h => .array (linkedItems_mono hK h)
  | .object _, _, .object h => .object (linkedSlots_mono hK h)
  | .closure _, _, .closure h => .closure (hK h)
  | _, _, .null => .null
  | _, _, .number x => .number x
  | _, _, .string s => .string s
  | _, _, .bool b => .bool b
  | _, _, .native f => .native f

/-- Items stay linked when more closures are. -/
theorem linkedItems_mono (hK : ∀ {c d}, K c d → K' c d) : ∀ {vs ws : List Value},
    List.Forall₂ (Linked K) vs ws → List.Forall₂ (Linked K') vs ws
  | [], _, .nil => .nil
  | _ :: _, _, .cons h hs => .cons (h.mono hK) (linkedItems_mono hK hs)

theorem linkedSlots_mono (hK : ∀ {c d}, K c d → K' c d) : ∀ {ps qs : List (String × Value)},
    List.Forall₂ (SlotLinked K) ps qs → List.Forall₂ (SlotLinked K') ps qs
  | [], _, .nil => .nil
  | (_, _) :: _, _, .cons (.slot h) hs => .cons (.slot (h.mono hK)) (linkedSlots_mono hK hs)

end

mutual

/-- Every value is linked to itself if every closure is. -/
theorem linked_refl (hK : ∀ c, K c c) : ∀ v : Value, Linked K v v
  | .array vs => .array (linkedItems_refl hK vs)
  | .object ps => .object (linkedSlots_refl hK ps)
  | .closure c => .closure (hK c)
  | .null => .null
  | .number x => .number x
  | .string s => .string s
  | .bool b => .bool b
  | .native f => .native f

theorem linkedItems_refl (hK : ∀ c, K c c) : ∀ vs : List Value, List.Forall₂ (Linked K) vs vs
  | [] => .nil
  | v :: vs => .cons (linked_refl hK v) (linkedItems_refl hK vs)

theorem linkedSlots_refl (hK : ∀ c, K c c) : ∀ ps : List (String × Value),
    List.Forall₂ (SlotLinked K) ps ps
  | [] => .nil
  | (_, v) :: ps => .cons (.slot (linked_refl hK v)) (linkedSlots_refl hK ps)

end

/-! ## Slots -/

/-- A slot is set to linked values under the same key. -/
theorem setSlot_linked {ps qs : List (String × Value)} (h : List.Forall₂ (SlotLinked K) ps qs)
    (key : String) (hv : Linked K v w) :
    List.Forall₂ (SlotLinked K) (setSlot ps key v) (setSlot qs key w) := by
  induction h with
  | nil => exact .cons (.slot hv) .nil
  | cons hp hps ih =>
    cases hp with
    | slot hp =>
      unfold setSlot
      split
      next => exact .cons (.slot hv) hps
      next => exact .cons (.slot hp) ih

/-- A key has linked values in both objects, or none in either. -/
theorem getSlot?_linked {ps qs : List (String × Value)} (h : List.Forall₂ (SlotLinked K) ps qs)
    (key : String) : Option.Rel (Linked K) (getSlot? ps key) (getSlot? qs key) := by
  induction h with
  | nil => exact .none
  | cons hp _ ih =>
    cases hp with
    | @slot key' v w hp =>
      unfold getSlot? at ih ⊢
      by_cases hkey : key' = key
      · simpa [hkey] using hp
      · simpa [hkey] using ih

/-! ## Members -/

/-- Linked values stand for the same key of objects. -/
theorem Linked.objectKey (h : Linked K k k') : k'.objectKey = k.objectKey := by
  cases h <;> rfl

/-- They stand for the same index. -/
theorem Linked.sequenceIndex (h : Linked K k k') : k'.sequenceIndex = k.sequenceIndex := by
  cases h <;> rfl

/-- They are equally long, or have no length. -/
theorem Linked.length (h : Linked K v w) : ResultLinked (Linked K) v.length w.length := by
  cases h with
  | string s => exact .number _
  | array h =>
    simp only [Value.length, h.length_eq]
    exact .number _
  | object h =>
    simp only [Value.length, h.length_eq]
    exact .number _
  | _ => rfl

/-- Where there is none, null is linked to null. -/
theorem Linked.getD {o o' : Option Value} (h : Option.Rel (Linked K) o o') :
    Linked K (o.getD .null) (o'.getD .null) := by
  cases h with
  | none => exact .null
  | some h => exact h

/-- At every index there are linked items, or none. -/
theorem items_linked {vs ws : List Value} (h : List.Forall₂ (Linked K) vs ws) (i : Nat) :
    Option.Rel (Linked K) vs[i]? ws[i]? := by
  induction h generalizing i with
  | nil => exact .none
  | cons h _ ih =>
    cases i with
    | zero => exact .some h
    | succ i => exact ih i

/-- They have linked members under linked keys. -/
theorem Linked.member (h : Linked K v w) (hk : Linked K k k') :
    ResultLinked (Linked K) (v.member k) (w.member k') := by
  cases h with
  | object h =>
    simp only [Value.member, hk.objectKey]
    exact .map _ fun key => .getD (getSlot?_linked h key)
  | array h =>
    simp only [Value.member, hk.sequenceIndex]
    refine .map _ fun i => .getD ?_
    cases i with
    | none => exact .none
    | some i => exact items_linked h i
  | string s =>
    simp only [Value.member, hk.sequenceIndex]
    refine .map _ fun i => .getD ?_
    cases i.bind (Text.charAt? s) with
    | none => exact .none
    | some c => exact .some (.string _)
  | _ => rfl

/-! ## Operators -/

/-- What an operator makes of two values that are not both numbers depends on their texts alone. -/
theorem binary_texts {sign : String} {op : Arithmetic} {l r : Value}
    (hop : Arithmetic.ofSign? sign = some op) (h : ¬ ∃ x y, l = number x ∧ r = number y) :
    binary sign l r =
      if l.isTextual && r.isTextual && op = .add then .ok (string (l.display ++ r.display))
      else if l.isTextual && r.isTextual && op = .div then
        .ok (array ((Text.split l.display r.display).map string))
      else .error (.of (.operandTypes sign l.type r.type)) := by
  unfold binary
  rw [hop]
  simp only
  split
  next x y => exact absurd ⟨x, y, rfl, rfl⟩ h
  next => rfl

theorem Linked.eq_number {x : Binary64} (h : Linked K v w) : w = .number x ↔ v = .number x := by
  cases h <;> simp

theorem strings_linked (ss : List String) :
    List.Forall₂ (Linked K) (ss.map string) (ss.map string) := by
  induction ss with
  | nil => exact .nil
  | cons s ss ih => exact .cons (.string s) ih

/-- Operators give linked results for linked operands. -/
theorem Linked.binary (hK : Closure.KeepsHeads K) (sign : String) {l l' r r' : Value}
    (hl : Linked K l l') (hr : Linked K r r') :
    ResultLinked (Linked K) (Value.binary sign l r) (Value.binary sign l' r') := by
  cases hop : Arithmetic.ofSign? sign with
  | none =>
    simp only [Value.binary, hop]
    rfl
  | some op =>
    by_cases hnumbers : ∃ x y, l = .number x ∧ r = .number y
    · obtain ⟨x, y, rfl, rfl⟩ := hnumbers
      cases hl
      cases hr
      simp only [Value.binary, hop]
      exact .map _ .number
    · have hnumbers' : ¬ ∃ x y, l' = .number x ∧ r' = .number y := by
        simpa only [hl.eq_number, hr.eq_number] using hnumbers
      rw [binary_texts hop hnumbers, binary_texts hop hnumbers', hl.isTextual, hr.isTextual,
        hl.display hK, hr.display hK, hl.type, hr.type]
      split
      next => exact .string _
      next =>
        split
        next => exact .array (strings_linked _)
        next => rfl

/-- An equality of types does not see closures. -/
theorem equality_linked (sign : String) (type : ValueType) (b : Bool) :
    ResultLinked (Linked K) (equality sign type b) (equality sign type b) := by
  unfold equality
  split
  next => exact .bool _
  next =>
    split
    next => exact .bool _
    next => rfl

theorem Linked.condition (sign : String) {l l' r r' : Value} (hl : Linked K l l')
    (hr : Linked K r r') :
    ResultLinked (Linked K) (Value.condition sign l r) (Value.condition sign l' r') := by
  cases hl with
  | bool a =>
    cases hr with
    | bool b =>
      simp only [Value.condition]
      split
      next => exact .bool _
      next =>
        split
        next => exact .bool _
        next => exact equality_linked sign _ _
    | _ => exact .bool false
  | number x =>
    cases hr with
    | number y => exact equality_linked sign _ _
    | _ => exact .bool false
  | string s =>
    cases hr with
    | string t => exact equality_linked sign _ _
    | _ => exact .bool false
  | _ => exact .bool false

end Value

end Avii
