import Avii.Proofs.Eval.Inheritance
import Avii.Proofs.Eval.Literals
import Avii.Proofs.Eval.Taxonomy
import Avii.Proofs.Number.Display
import Avii.Proofs.Token.Writing

/-!
# The objects of a session

Wherever an object turns up in a session (`TurnsUp`), an object literal of the session has made it
(`turnsUp_made`): evaluating the properties of the literal gave pairs, and the slots of the object
are what the pairs come together to. The keys of a literal are names, and the names in the tree of a
text are identifiers (`tree_named`), neither keywords nor numbers. So no finite number names a slot
of an object: numbers are displayed in positional notation, which no name looks like.
-/

namespace Avii

/-- A letter or an underscore, and then letters, digits and underscores; but not a keyword. -/
def IsIdentifier (s : String) : Prop :=
  (∃ c cs, s.toList = c :: cs ∧ (c.isAlpha = true ∨ c = '_') ∧
    ∀ d ∈ cs, d.isAlphanum = true ∨ d = '_') ∧
  ∀ word ∈ Scan.keywords, word.2 ≠ s

theorem isWordStart_alpha {c : Char} (h : Scan.isWordStart c = true) :
    c.isAlpha = true ∨ c = '_' := by
  unfold Scan.isWordStart at h
  simp only [decide_eq_true_eq] at h
  rcases h with rfl | h | h
  · exact .inr rfl
  · have hlower : c.isLower = true :=
      Bool.and_eq_true_iff.mpr ⟨decide_eq_true h.1, decide_eq_true h.2⟩
    exact .inl (Bool.or_eq_true_iff.mpr (.inr hlower))
  · have hupper : c.isUpper = true := decide_eq_true h
    exact .inl (Bool.or_eq_true_iff.mpr (.inl hupper))

theorem isWordChar_alphanum {c : Char} (h : Scan.isWordChar c = true) :
    c.isAlphanum = true ∨ c = '_' := by
  unfold Scan.isWordChar at h
  rcases Bool.or_eq_true_iff.mp h with h | h
  · exact (isWordStart_alpha h).imp_left fun h => Bool.or_eq_true_iff.mpr (.inl h)
  · have hrange := of_decide_eq_true h
    have hdigit : c.isDigit = true :=
      Bool.and_eq_true_iff.mpr ⟨decide_eq_true hrange.1, decide_eq_true hrange.2⟩
    exact .inl (Bool.or_eq_true_iff.mpr (.inr hdigit))

/-- The words that are names are the identifiers. -/
theorem isWord_identifier {s : String} (h : Scan.IsWord (.ident, s)) : IsIdentifier s := by
  have hkeywords : ∀ word ∈ Scan.keywords, word.1 ≠ .ident := by decide
  have hmarks : ∀ mark ∈ Scan.marks, mark.1 ≠ .ident := by decide
  generalize hw : (Kind.ident, s) = word at h
  cases h with
  | keyword h =>
    subst hw
    exact absurd rfl (hkeywords _ h)
  | mark h =>
    obtain ⟨rfl, -⟩ := Prod.mk.inj hw
    exact absurd rfl (hmarks _ h)
  | @name text c cs htext hc hcs hother =>
    obtain ⟨-, rfl⟩ := Prod.mk.inj hw
    exact ⟨⟨c, cs, htext, isWordStart_alpha hc, fun d hd => isWordChar_alphanum (hcs d hd)⟩, hother⟩
  | comparison | number | string => cases hw

/-! ## Names and numbers -/

/-- A text that starts with a sign or a digit is no name. -/
theorem not_identifier {s : String} {c : Char} {cs : List Char} (hs : s.toList = c :: cs)
    (hc : c = '-' ∨ Text.isAsciiDigit c = true) : ¬ IsIdentifier s := by
  rintro ⟨⟨d, ds, hd, hstart, -⟩, -⟩
  obtain ⟨rfl, -⟩ := List.cons.inj (hs.symm.trans hd)
  rcases hc with rfl | hc
  · revert hstart
    decide
  · have hn := Numeral.isAsciiDigit_iff.mp hc
    rcases hstart with hstart | rfl
    · have hletter : 65 ≤ c.toNat := by
        rcases Bool.or_eq_true_iff.mp hstart with h | h
        · exact (of_decide_eq_true h).1
        · have hlower : 97 ≤ c.toNat := of_decide_eq_true (Bool.and_eq_true_iff.mp h).1
          omega
      omega
    · revert hc
      decide

/-- Neither is the display of a finite number. -/
theorem display_not_identifier {x : Binary64} (h : x.isFinite = true) :
    ¬ IsIdentifier x.display := by
  obtain ⟨p, hp, -⟩ := Binary64.display_isPositional h
  obtain ⟨d, rest, hchars, hd⟩ := p.plain.chars.2.1
  rw [hp, Positional.text, Binary64.signed]
  cases p.negative with
  | true => exact not_identifier String.toList_ofList (.inl rfl)
  | false =>
    rw [hchars]
    exact not_identifier String.toList_ofList (.inr hd)

theorem getSlot?_eq_none {slots : List (String × Value)} {key : String}
    (h : key ∉ slots.map Prod.fst) : getSlot? slots key = none := by
  cases hs : getSlot? slots key with
  | none => rfl
  | some v => exact absurd (List.mem_map_of_mem (getSlot?_mem hs)) h

/-- In an object with names for keys, only positive infinity and what is not a number can name a
slot. -/
theorem member_number {slots : List (String × Value)}
    (hkeys : ∀ key ∈ slots.map Prod.fst, IsIdentifier key) (x : Binary64) :
    ∃ w, (Value.object slots).member (.number x) = .ok w ∧
      (x.isFinite = true ∨ x = .infinite true → w = .null) ∧
      (w ≠ .null → x.isNaN = true ∧ ("NaN", w) ∈ slots ∨
        x = .positiveInfinity ∧ ("inf", w) ∈ slots) := by
  have hnone : ∀ {key}, ¬ IsIdentifier key → (getSlot? slots key).getD .null = .null := by
    intro key hkey
    rw [getSlot?_eq_none fun hmem => hkey (hkeys key hmem)]
    rfl
  have hnull : x.isFinite = true ∨ x = .infinite true →
      (getSlot? slots x.display).getD .null = .null := by
    rintro (hfinite | rfl)
    · exact hnone (display_not_identifier hfinite)
    · have hdisplay : (Binary64.infinite true).display = "-inf" := by decide +kernel
      rw [hdisplay]
      exact hnone (not_identifier (show "-inf".toList = '-' :: _ from rfl) (.inl rfl))
  have hfound : ∀ {key}, (getSlot? slots key).getD .null ≠ .null →
      (key, (getSlot? slots key).getD .null) ∈ slots := by
    intro key hne
    cases hslot : getSlot? slots key with
    | none => exact absurd (by rw [hslot]; rfl) hne
    | some v => exact getSlot?_mem hslot
  refine ⟨(getSlot? slots x.display).getD .null, rfl, hnull, ?_⟩
  intro hne
  cases hnan : x.isNaN with
  | true =>
    have hdisplay : x.display = "NaN" := by rw [Binary64.display, hnan, if_pos rfl]
    rw [hdisplay] at hne ⊢
    exact .inl ⟨rfl, hfound hne⟩
  | false =>
    -- what is neither finite nor undefined is one of the infinities
    have hinf : x.magnitude = Binary64.infinity := by
      refine Nat.le_antisymm (Binary64.isNaN_eq_false_iff.mp hnan) (Nat.le_of_not_lt fun hlt => ?_)
      exact hne (hnull (.inl (Binary64.isFinite_iff.mpr hlt)))
    have hx : Binary64.infinite x.isNegative = x := by
      rw [Binary64.infinite, ← hinf, Binary64.ofMagnitude_magnitude]
    cases hnegative : x.isNegative with
    | true => exact absurd (hnull (.inr (hnegative ▸ hx.symm))) hne
    | false =>
      rw [hnegative] at hx
      have hdisplay : (Binary64.infinite false).display = "inf" := by decide +kernel
      rw [← hx, hdisplay] at hne ⊢
      exact .inr ⟨rfl, hfound hne⟩

/-! ## Names in trees -/

namespace Eval

/-- The names in a tree are identifiers. -/
def Named (t : Tree) : Prop :=
  ∀ l ∈ Syntax.leaves t, l.kind = .ident → IsIdentifier l.text

theorem Named.child {label : Label} {line : Option Int} {cs : List Tree} {c : Tree}
    (h : Named (.node label line cs)) (hc : c ∈ cs) : Named c :=
  fun l hl => h l (mem_leavesOf hc hl)

/-- The names in the tree of a program text are identifiers. -/
theorem tree_named {source : String} {limit : Nat} {ts : List Token} {t : Tree}
    (hts : tokenize source = .ok ts) (ht : parseTokens limit ts = .ok t) : Named t := by
  intro l hl hkind
  rw [Syntax.program_leaves (Syntax.program_reads ht (tokenize_endsOnce hts))] at hl
  unfold Syntax.leavesIn at hl
  obtain ⟨tok, htok, rfl⟩ := List.mem_map.mp hl
  have hident : tok.kind = .ident := by
    revert hkind
    unfold Token.leaf
    cases tok.kind <;> simp [LeafKind.ofKind]
  have hword : Scan.IsWord tok.spelling :=
    isWord_iff.mpr ⟨source, ts, hts, tok, (List.mem_filter.mp htok).1, by simp [hident], rfl⟩
  unfold Token.spelling at hword
  rw [hident] at hword
  exact isWord_identifier hword

/-! ## Sessions -/

variable {runs : List Submission} {q : Moment} {v : Value}
  {slots : List (String × Value)}

/-- A moment that a session comes to. -/
inductive InSession (runs : List Submission) : Moment → Prop where
  | reached {before after : List Submission} {source : String} {limit n : Nat}
      {ts : List Token} {t : Tree} {q : Moment}
      (hruns : runs = before ++ ⟨source, limit, .ok n⟩ :: after)
      (hts : tokenize source = .ok ts) (ht : parseTokens limit ts = .ok t)
      (h : Reaches ⟨n, .tree Machine.globalId t, noted source ts t (runAll before)⟩ q) :
      InSession runs q

/-- What holds of the store of a fresh machine, and is kept by the evaluation of each tree of a
session, holds between any two runs of it. -/
theorem runAll_keeps {P : Store → Prop} (hfresh : P Machine.fresh.store)
    (hrun : ∀ {before after source limit n ts t},
      runs = before ++ ⟨source, limit, .ok n⟩ :: after →
      tokenize source = .ok ts → parseTokens limit ts = .ok t → P (runAll before).store →
      P (final (evalTree n Machine.globalId t (noted source ts t (runAll before)))).store)
    {before : List Submission} (h : before <+: runs) : P (runAll before).store := by
  induction before using List.reverseRecOn with
  | nil => exact hfresh
  | append_singleton before s ih =>
    have hbefore := ih ((List.prefix_append before [s]).trans h)
    obtain ⟨after, hruns⟩ := h
    have hlast : runAll (before ++ [s]) = final (s.run (runAll before)) := by
      simp [runAll, List.foldl_append]
    rw [hlast, Submission.run]
    rcases run_store s.limit s.budget Machine.globalId s.source (runAll before) with
      heq | ⟨n, ts, t, hn, hts, ht⟩
    · rw [heq]
      exact hbefore
    · obtain ⟨source, limit, budget⟩ := s
      obtain rfl : budget = .ok n := hn
      rw [run_parsed n _ _ hts ht, final_ofEval]
      rw [List.append_assoc] at hruns
      exact hrun hruns.symm hts ht hbefore

/-- The bodies of the closures in the store of a session have identifiers as their names. -/
theorem runAll_named {before : List Submission} (h : before <+: runs) :
    StoreBodiesIn Named (runAll before).store := by
  refine runAll_keeps (fresh_bodies Named) ?_ h
  intro before after source limit n ts t _ hts ht hstore
  have hD := @inheritance_lawful Named Named.child
  have hkeeps : Keeps (inheritance Named) (noted source ts t (runAll before)).store
      (inheritance Named).value (evalTree n Machine.globalId t) :=
    (evaluates hD n).tree trivial (tree_named hts ht)
  exact (hkeeps.final hstore).2

/-- The names that a session comes across are identifiers. -/
theorem session_named (h : InSession runs q) : (inheritance Named).Holds q := by
  obtain ⟨hruns, hts, ht, hreaches⟩ := h
  have hstore := runAll_named ⟨_, hruns.symm⟩
  exact reaches_holds (inheritance_lawful Named.child) hreaches ⟨hstore, trivial, tree_named hts ht⟩

/-- An object with some slots is made by an object literal of a session. -/
def MadeIn (runs : List Submission) (slots : List (String × Value)) : Prop :=
  ∃ q, InSession runs q ∧ Makes q slots

/-- No object is built in. -/
theorem fresh_objects (made : List (String × Value) → Prop) :
    StoreObjectsIn made Machine.fresh.store :=
  (Store.allBound_empty _).createGlobal nofun (fun _ => nofun) (fun _ => nofun) fun _ => nofun

/-- A run starts with objects that the session has made, if its store has such objects only. -/
theorem run_starts {before after : List Submission} {source : String} {limit n : Nat}
    {ts : List Token} {t : Tree} (hruns : runs = before ++ ⟨source, limit, .ok n⟩ :: after)
    (hts : tokenize source = .ok ts) (ht : parseTokens limit ts = .ok t)
    (hstore : StoreObjectsIn (MadeIn runs) (runAll before).store) :
    Moment.Starts (MadeIn runs)
      ⟨n, .tree Machine.globalId t, noted source ts t (runAll before)⟩ :=
  ⟨hstore, trivial, fun q _ hq hmakes => ⟨q, .reached hruns hts ht hq, hmakes⟩⟩

/-- All objects in the store of a session are made by its object literals. -/
theorem runAll_objects {before : List Submission} (h : before <+: runs) :
    StoreObjectsIn (MadeIn runs) (runAll before).store := by
  refine runAll_keeps (fresh_objects _) ?_ h
  intro before after source limit n ts t hruns hts ht hstore
  exact ends_after (starts_ends (run_starts hruns hts ht hstore))

theorem session_starts (h : InSession runs q) : q.Starts (MadeIn runs) := by
  obtain ⟨hruns, hts, ht, hreaches⟩ := h
  exact reaches_starts hreaches (run_starts hruns hts ht (runAll_objects ⟨_, hruns.symm⟩))

/-- A run that gives a value has evaluated the tree of its text. -/
theorem run_gives {limit : Nat} {budget : Except LimitError Nat} {scope : ScopeId}
    {source : String} {m m' : Machine} (h : Program.run limit budget scope source m = .ok v m') :
    ∃ n ts t, budget = .ok n ∧ tokenize source = .ok ts ∧ parseTokens limit ts = .ok t ∧
      evalTree n scope t (noted source ts t m) = .ok v m' := by
  by_cases hparses : ∃ ts t, tokenize source = .ok ts ∧ parseTokens limit ts = .ok t
  · obtain ⟨ts, t, hts, ht⟩ := hparses
    cases budget with
    | error e =>
      obtain ⟨m'', hrun, -⟩ := run_unbudgeted e scope m hts ht
      cases h.symm.trans hrun
    | ok n =>
      rw [run_parsed n scope m hts ht, Run.ofEval] at h
      cases heval : evalTree n scope t (noted source ts t m) with
      | error f m₂ => simp [heval] at h
      | ok w m₂ =>
        simp only [heval, EStateM.Result.ok.injEq] at h
        obtain ⟨rfl, rfl⟩ := h
        exact ⟨n, ts, t, rfl, hts, ht, heval⟩
  · obtain ⟨f, m'', hread, -⟩ :=
      read_refused limit m fun ts t hts ht => hparses ⟨ts, t, hts, ht⟩
    cases h.symm.trans (Program.run_refused hread budget scope)

/-- An object with some slots turns up in a session, at any depth of a value: in the store between
two runs, in the result of a run, or at a moment of one. -/
inductive TurnsUp (runs : List Submission) (slots : List (String × Value)) : Prop where
  | bound {before : List Submission} {id : ScopeId} {scope : Scope} {b : Binding}
      (hbefore : before <+: runs)
      (hs : (runAll before).store.scopes[id]? = some scope) (hb : b ∈ scope.bindings)
      (h : b.value.Nests slots)
  | result {before after : List Submission} {s : Submission} {v : Value} {m : Machine}
      (hruns : runs = before ++ s :: after) (hrun : s.run (runAll before) = .ok v m)
      (h : v.Nests slots)
  | handled {q : Moment} {v : Value} (hq : InSession runs q) (hv : q.Handles v)
      (h : v.Nests slots)

/-- Every object of a session is made by an object literal of it. -/
theorem turnsUp_made (h : TurnsUp runs slots) : MadeIn runs slots := by
  cases h with
  | bound hbefore hs hb h => exact runAll_objects hbefore _ _ hs _ hb slots h
  | handled hq hv h => exact handles_objects (session_starts hq) hv slots h
  | @result _ _ s _ _ hruns hrun h =>
    obtain ⟨n, ts, t, hn, hts, ht, hv⟩ := run_gives hrun
    obtain ⟨source, limit, budget⟩ := s
    obtain rfl : budget = .ok n := hn
    have hstart := InSession.reached hruns hts ht .refl
    exact handles_objects (session_starts hstart) (.result ⟨_, hv⟩) slots h

/-- The keys of an object that a session makes are identifiers. -/
theorem makes_named (hq : InSession runs q) (h : Makes q slots) :
    ∀ key ∈ slots.map Prod.fst, IsIdentifier key := by
  obtain ⟨n, scope, cs, m, pairs, m', rfl, -, hproperties, hcollapses⟩ := makes_collapses h
  obtain ⟨-, line, hnamed⟩ := (session_named hq).task
  intro key hkey
  rw [hcollapses.keys, List.mem_eraseDups, List.mem_map] at hkey
  obtain ⟨p, hp, rfl⟩ := hkey
  obtain ⟨i, hi, rfl⟩ := List.mem_iff_getElem.mp hp
  -- the pair belongs to the property in the same place
  obtain ⟨line', l, value, ht, hkind, htext⟩ :=
    hproperties.get (hproperties.length_eq ▸ hi) hi
  have hproperty : Named (.node .prop line' [.leaf l, value]) :=
    ht ▸ hnamed.child (List.get_mem ..)
  have hname := hproperty.child List.mem_cons_self l (by simp [Syntax.leaves]) hkind
  rwa [htext] at hname

/-- Objects have identifiers for keys. Every object that turns up in a session, at any depth of a
binding, a result, a callee or an argument, comes from an object literal of the session: its slots
are what the keys and values of the literal come together to, each key once, in the order in which
the keys first come up, with the value that comes last. Its keys are identifiers. So a number that
is finite or minus infinity never names a slot of it; one that is not a number does if it has a key
`NaN`, and plus infinity if it has a key `inf`. -/
theorem objects_keyed (h : TurnsUp runs slots) :
    (∃ n scope cs m pairs m', InSession runs ⟨n + 1, .construct scope .object cs, m⟩ ∧
      cs.mapM (property (evalTree n scope) scope) m = .ok pairs m' ∧
      List.Forall₂ (fun t p => IsProperty t p.1) cs pairs ∧ Collapses pairs slots) ∧
    (∀ key ∈ slots.map Prod.fst, IsIdentifier key) ∧
    ∀ x : Binary64, ∃ w, (Value.object slots).member (.number x) = .ok w ∧
      (x.isFinite = true ∨ x = .infinite true → w = .null) ∧
      (w ≠ .null → x.isNaN = true ∧ ("NaN", w) ∈ slots ∨
        x = .positiveInfinity ∧ ("inf", w) ∈ slots) := by
  obtain ⟨q, hq, hmakes⟩ := turnsUp_made h
  have hkeys := makes_named hq hmakes
  refine ⟨?_, hkeys, member_number hkeys⟩
  obtain ⟨n, scope, cs, m, pairs, m', rfl, hpairs, hproperties, hcollapses⟩ :=
    makes_collapses hmakes
  exact ⟨n, scope, cs, m, pairs, m', hq, hpairs, hproperties, hcollapses⟩

/-- For instance an object with a repeated key and one that is displayed like a number. -/
theorem objects_keyed_repeated :
    let source := "\x7bb: \"x\", NaN: \"y\", b: \"z\"\x7d"
    ∃ slots, TurnsUp [⟨source, 100, .ok 20⟩] slots ∧
      slots = [("b", .string "z"), ("NaN", .string "y")] ∧
      (∀ key ∈ slots.map Prod.fst, IsIdentifier key) ∧
      (Value.object slots).member (.number (.ofNat 1)) = .ok .null ∧
      (Value.object slots).member (.number .nan) = .ok (.string "y") := by
  intro source
  let ts : List Token := [⟨.lbrace, "\x7b", 1, 1⟩, ⟨.ident, "b", 1, 2⟩, ⟨.colon, ":", 1, 3⟩,
    ⟨.string, "x", 1, 5⟩, ⟨.comma, ",", 1, 8⟩, ⟨.ident, "NaN", 1, 10⟩, ⟨.colon, ":", 1, 13⟩,
    ⟨.string, "y", 1, 15⟩, ⟨.comma, ",", 1, 18⟩, ⟨.ident, "b", 1, 20⟩, ⟨.colon, ":", 1, 21⟩,
    ⟨.string, "z", 1, 23⟩, ⟨.rbrace, "\x7d", 1, 26⟩, ⟨.eof, "", 1, 27⟩]
  have hts : tokenize source = .ok ts := by
    have htokens : (tokenize source).toOption = some ts := by decide +kernel
    cases h : tokenize source with
    | error e => simp [h, Except.toOption] at htokens
    | ok ts' =>
      rw [h] at htokens
      exact congrArg _ (Option.some.inj htokens)
  obtain ⟨m, hrun⟩ : ∃ m, (Submission.mk source 100 (.ok 20)).run .fresh =
      .ok (.object [("b", .string "z"), ("NaN", .string "y")]) m := by
    rw [Submission.run, run_parsed 20 _ _ hts rfl]
    exact ⟨_, rfl⟩
  have hup : TurnsUp [⟨source, 100, .ok 20⟩] [("b", .string "z"), ("NaN", .string "y")] :=
    .result (List.nil_append _).symm hrun (.self _)
  obtain ⟨-, hkeys, hmember⟩ := objects_keyed hup
  obtain ⟨w, hw, hfinite, -⟩ := hmember (.ofNat 1)
  refine ⟨_, hup, rfl, hkeys, ?_, ?_⟩
  · rw [hw, hfinite (.inl (by decide +kernel))]
  · have hdisplay : Binary64.nan.display = "NaN" := by decide +kernel
    simp only [Value.member, Value.objectKey, hdisplay, Except.map]
    rfl

end Eval

end Avii
