import Avii.Proofs.Eval.Discipline
import Avii.Proofs.Eval.Provenance

/-!
# Disciplines at every moment

A lawful discipline is kept by evaluation as a whole; here it is shown to hold all along. A moment
is held by a discipline if its machine has a chosen store and what it is about to carry out is
chosen (`Discipline.Holds`). Then so are its parts (`part_holds`), and with them all that it carries
out (`reaches_holds`): what a later part finds was left by evaluations that keep the discipline.
-/

namespace Avii.Eval

variable {D : Discipline}

/-- What a task is about is chosen: its scope and its trees, or the values that it is given. -/
def Discipline.Allows (D : Discipline) (s : Store) : Task → Prop
  | .tree scope t | .arguments scope t => D.scope s scope ∧ D.tree t
  | .construct scope label cs => D.scope s scope ∧ ∃ line, D.tree (.node label line cs)
  | .items scope ts | .statements scope ts => D.scope s scope ∧ ∀ t ∈ ts, D.tree t
  | .call v vs => D.value s v ∧ ∀ v ∈ vs, D.value s v
  | .enter c vs => D.value s (.closure c) ∧ ∀ v ∈ vs, D.value s v

/-- A moment with a chosen store and a task about chosen things. -/
structure Discipline.Holds (D : Discipline) (p : Moment) : Prop where
  store : D.store p.machine.store
  task : D.Allows p.machine.store p.task

section Parts

variable (hD : D.Lawful) {n : Nat} {scope : ScopeId} {m m' : Machine}

include hD

theorem evalTree_kept {t : Tree} {v : Value} (hm : D.store m.store) (hs : D.scope m.store scope)
    (ht : D.tree t) (h : evalTree n scope t m = .ok v m') :
    D.store m'.store ∧ D.scope m'.store scope ∧ D.value m'.store v := by
  obtain ⟨hleads, hstore, hv⟩ := ((evaluates hD n).tree hs ht).reaches hm h
  exact ⟨hstore, hD.scope_mono hleads hs, hv⟩

/-- The parts of a moment that a discipline holds are held too. -/
theorem part_holds {p q : Moment} (h : Part p q) (hp : D.Holds p) : D.Holds q := by
  obtain ⟨hm, ht⟩ := hp
  cases h with
  | node => exact ⟨hm, ht.1, _, ht.2⟩
  | body =>
    obtain ⟨hs, line, hc⟩ := ht
    exact ⟨hm, hs, fun t hmem => hD.child hc hmem⟩
  | initial | test | assigned | callee =>
    obtain ⟨hs, line, hc⟩ := ht
    exact ⟨hm, hs, hD.child hc (by simp)⟩
  | left | target =>
    obtain ⟨hs, line, hc⟩ := ht
    exact ⟨hm, hs, hD.child hc (by simp)⟩
  | @branch n scope test consequent alternate b body m m₁ ht' hb =>
    obtain ⟨hs, line, hc⟩ := ht
    obtain ⟨hm₁, hs₁, -⟩ := evalTree_kept hD hm hs (hD.child hc (by simp)) ht'
    -- the branch is a child, whichever it is, and its statements are children of it
    have hbranch : D.tree (if b then consequent else alternate) := by
      split
      next => exact hD.child hc (by simp)
      next => exact hD.child hc (by simp)
    obtain ⟨line', heq⟩ := childrenOf_ok hb
    rw [heq] at hbranch
    exact ⟨hm₁, hs₁, fun t hmem => hD.child hbranch hmem⟩
  | right _ hv | key hv | arguments hv =>
    obtain ⟨hs, line, hc⟩ := ht
    obtain ⟨hm₁, hs₁, -⟩ := evalTree_kept hD hm hs (hD.child hc (by simp)) hv
    exact ⟨hm₁, hs₁, hD.child hc (by simp)⟩
  | @property n scope before after t key value name slots m m₁ hb ht' _ _ =>
    obtain ⟨hs, line, hc⟩ := ht
    have hbefore : ∀ c ∈ before, D.tree c := fun c hmem => hD.child hc (by simp [hmem])
    have hkeeps := keeps_properties hD hs (fun c hc => (evaluates hD n).tree hs hc) hbefore
      (hD.noSlots _)
    obtain ⟨hleads, hm₁, -⟩ := hkeeps.reaches hm hb
    obtain ⟨line', rfl⟩ := childrenOf_ok ht'
    have hprop := hD.child hc (c := .node .prop line' [key, value]) (by simp)
    exact ⟨hm₁, hD.scope_mono hleads hs, hD.child hprop (by simp)⟩
  | array =>
    obtain ⟨hs, line, hc⟩ := ht
    exact ⟨hm, hs, fun t hmem => hD.child hc hmem⟩
  | @call n scope callee args v vs m m₁ m₂ hv ha =>
    obtain ⟨hs, line, hc⟩ := ht
    obtain ⟨hm₁, hs₁, hv⟩ := evalTree_kept hD hm hs (hD.child hc (by simp)) hv
    have hkeeps := (evaluates hD n).arguments hs₁ (hD.child hc (c := args) (by simp))
    obtain ⟨hleads, hm₂, hvs⟩ := hkeeps.reaches hm₁ ha
    exact ⟨hm₂, hD.value_mono hleads hv, hvs⟩
  | @item n scope before after t vs m m₁ hb =>
    obtain ⟨hs, hts⟩ := ht
    have hbefore : ∀ c ∈ before, D.tree c := fun c hmem => hts c (by simp [hmem])
    have hkeeps := keeps_all hD (fun c hc => (evaluates hD n).tree hs hc) hbefore
    obtain ⟨hleads, hm₁, -⟩ := hkeeps.reaches hm hb
    exact ⟨hm₁, hD.scope_mono hleads hs, hts _ (by simp)⟩
  | argumentItems ha =>
    obtain ⟨hs, hc⟩ := ht
    obtain ⟨line, rfl⟩ := childrenOf_ok ha
    exact ⟨hm, hs, fun t hmem => hD.child hc hmem⟩
  | @statement n scope before after t v m m₁ hb =>
    obtain ⟨hs, hts⟩ := ht
    have hbefore : ∀ c ∈ before, D.tree c := fun c hmem => hts c (by simp [hmem])
    have hkeeps := keeps_sequence hD (fun c hc => (evaluates hD n).tree hs hc) hbefore (hD.null _)
    obtain ⟨hleads, hm₁, -⟩ := hkeeps.reaches hm hb
    exact ⟨hm₁, hD.scope_mono hleads hs, hts _ (by simp)⟩
  | closure => exact ⟨hm, ht⟩
  | enter ho =>
    obtain ⟨hc, hvs⟩ := ht
    obtain ⟨-, hm₁, hs₁⟩ := (keeps_openScope hD hc hvs).reaches hm ho
    exact ⟨hm₁, hs₁, (hD.made hc).2⟩

/-- All that a moment carries out is held by the disciplines that hold it. -/
theorem reaches_holds {p q : Moment} (h : Reaches p q) (hp : D.Holds p) : D.Holds q := by
  induction h with
  | refl => exact hp
  | tail _ hpart ih => exact part_holds hD hpart ih

end Parts

end Avii.Eval
