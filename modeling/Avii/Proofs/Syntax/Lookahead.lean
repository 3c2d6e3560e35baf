import Avii.Proofs.Syntax.Loops
import Avii.Proofs.Token.Layout

/-!
# How far a parser looks

`Sure S B p r ts` says that what the parser `p` does with the tokens `ts` is decided by the tokens
that it takes and the one after them. If it succeeds, it does so whatever comes later: the next
token may stay as it is, or be of any kind in `S`. If it refuses a token, it does so whatever comes
later, and the tokens before the refused one were not yet wrong: some words complete them
(`Viable`). It is another parser `r` that has to accept the completion, the same one with a larger
budget; and where no tokens have been taken, the completed text starts with a token of a kind in
`B`.

The rules below follow the ways in which parsers are put together. None of them looks at a
particular construct.
-/

namespace Avii

/-- The kind and the text of a token, without its place. -/
def Token.spelling (t : Token) : Kind × String := (t.kind, t.text)

namespace Parser

variable {α β ι : Type} {S S' B B' : Kind → Prop} {p p' r r' : Parser α} {ts us v w : List Token}
  {t : Token}

/-! ## Lists of tokens -/

/-- No token is an `eof`. -/
def Inner (w : List Token) : Prop := ∀ t ∈ w, t.kind ≠ .eof

/-- Some token is an `eof`. -/
def Ended (ts : List Token) : Prop := ∃ t ∈ ts, t.kind = .eof

theorem inner_nil : Inner [] := by simp [Inner]

theorem inner_singleton (h : t.kind ≠ .eof) : Inner [t] := by simpa [Inner] using h

theorem Inner.append (hv : Inner v) (hw : Inner w) : Inner (v ++ w) := by
  intro t ht
  rcases List.mem_append.mp ht with ht | ht
  · exact hv t ht
  · exact hw t ht

/-- An end that is not among the first tokens is among the rest. -/
theorem Ended.of_append (h : Ended (w ++ ts)) (hw : Inner w) : Ended ts := by
  obtain ⟨t, ht, hk⟩ := h
  rcases List.mem_append.mp ht with ht | ht
  · exact absurd hk (hw t ht)
  · exact ⟨t, ht, hk⟩

/-- A list with an end has a next token. -/
theorem Ended.eq_cons (h : Ended ts) : ∃ us, ts = next ts :: us := by
  cases ts with
  | nil => simp [Ended] at h
  | cons t us => exact ⟨us, rfl⟩

/-- A token that is next and does not end the list is in it. -/
theorem next_inner (h : (next ts).kind ≠ .eof) : ∃ us, ts = next ts :: us := by
  cases ts with
  | nil => exact absurd rfl h
  | cons t us => exact ⟨us, rfl⟩

/-! ## Completions -/

/-- Every kind of token. -/
def Any (_ : Kind) : Prop := True

/-- Words that a text can have as tokens. -/
def Lexical (words : List (Kind × String)) : Prop :=
  ∀ word ∈ words, Scan.Spells word.2.toList word.1 word.2

/-- Words that a text can have can come one after the other. -/
theorem Lexical.append {words words' : List (Kind × String)} (h : Lexical words)
    (h' : Lexical words') : Lexical (words ++ words') := by
  intro word hword
  rcases List.mem_append.mp hword with hword | hword
  · exact h word hword
  · exact h' word hword

/-- Some words after `w` make it something that `r` accepts, before a token of a kind in `S`. If
there is nothing in `w`, all starts with a token of a kind in `B`. -/
def Viable (S B : Kind → Prop) (r : Parser α) (w : List Token) : Prop :=
  ∃ words, Lexical words ∧ ∀ cont rest, cont.map Token.spelling = words → S (next rest).kind →
    (w = [] → B (next (cont ++ rest)).kind) ∧ ∃ a, r (w ++ (cont ++ rest)) = .ok (a, rest)

/-- Some words are accepted by all of some parsers, before a token of a kind in `S`. -/
def Fresh (S B : Kind → Prop) (r : ι → Parser α) : Prop :=
  ∃ words, Lexical words ∧ ∀ cont rest, cont.map Token.spelling = words → S (next rest).kind →
    B (next (cont ++ rest)).kind ∧ ∀ i, ∃ a, r i (cont ++ rest) = .ok (a, rest)

/-- Words that all of some parsers accept complete each of them. -/
theorem Fresh.viable {r : ι → Parser α} (h : Fresh S B r) (i : ι) : Viable S B (r i) [] := by
  obtain ⟨words, hwords, h⟩ := h
  refine ⟨words, hwords, fun cont rest hcont hrest => ?_⟩
  obtain ⟨hB, ha⟩ := h cont rest hcont hrest
  exact ⟨fun _ => hB, ha i⟩

/-- Words that complete a parser are accepted by it alone. -/
theorem Viable.fresh (h : Viable S B r []) : Fresh S B fun _ : ι => r := by
  obtain ⟨words, hwords, h⟩ := h
  refine ⟨words, hwords, fun cont rest hcont hrest => ?_⟩
  obtain ⟨hB, ha⟩ := h cont rest hcont hrest
  exact ⟨hB rfl, fun _ => ha⟩

/-- A completion may start with more kinds of token. -/
theorem Viable.weaken (h : Viable S B r w) (hB : ∀ k, B k → B' k) : Viable S B' r w := by
  obtain ⟨words, hwords, h⟩ := h
  refine ⟨words, hwords, fun cont rest hcont hrest => ?_⟩
  obtain ⟨hfirst, ha⟩ := h cont rest hcont hrest
  exact ⟨fun hnil => hB _ (hfirst hnil), ha⟩

/-- Words that all of some parsers accept are accepted by any choice of them. -/
theorem Fresh.comp {κ : Type} {r : ι → Parser α} (h : Fresh S B r) (f : κ → ι) :
    Fresh S B fun k => r (f k) := by
  obtain ⟨words, hwords, h⟩ := h
  refine ⟨words, hwords, fun cont rest hcont hrest => ?_⟩
  obtain ⟨hB, ha⟩ := h cont rest hcont hrest
  exact ⟨hB, fun k => ha (f k)⟩

/-- Fresh words may start with more kinds of token. -/
theorem Fresh.weaken {r : ι → Parser α} (h : Fresh S B r) (hB : ∀ k, B k → B' k) :
    Fresh S B' r := by
  obtain ⟨words, hwords, h⟩ := h
  refine ⟨words, hwords, fun cont rest hcont hrest => ?_⟩
  obtain ⟨hfirst, ha⟩ := h cont rest hcont hrest
  exact ⟨hB _ hfirst, ha⟩

/-- Nothing needs to be added where the next token is accepted as it is. -/
theorem fresh_nil {r : ι → Parser α} (hB : ∀ k, S k → B k)
    (h : ∀ i rest, S (next rest).kind → ∃ a, r i rest = .ok (a, rest)) : Fresh S B r := by
  refine ⟨[], by simp [Lexical], fun cont rest hcont hrest => ?_⟩
  rw [List.map_eq_nil_iff.mp hcont]
  exact ⟨hB _ hrest, fun i => h i rest hrest⟩

theorem fresh_pure (a : ι → α) : Fresh S Any fun i => (pure (a i) : Parser α) :=
  fresh_nil (fun _ _ => trivial) fun _ _ _ => ⟨_, rfl⟩

/-- A word first, and then others. -/
theorem fresh_cons {r : ι → Parser α} (r' : ι → Token → Parser α) {kind : Kind} {text : String}
    (hword : Scan.Spells text.toList kind text)
    (hr : ∀ i t us, t.kind = kind → t.text = text → r i (t :: us) = r' i t us) (hB : B kind)
    (h : Fresh S Any fun x : ι × Token => r' x.1 x.2) : Fresh S B r := by
  obtain ⟨words, hwords, h⟩ := h
  refine ⟨(kind, text) :: words, ?_, fun cont rest hcont hrest => ?_⟩
  · intro word hmem
    rcases List.mem_cons.mp hmem with rfl | hmem
    · exact hword
    · exact hwords word hmem
  · obtain ⟨t, cont, rfl, ht, hcont⟩ := List.map_eq_cons_iff.mp hcont
    obtain ⟨hkind, htext⟩ := Prod.mk.inj ht
    refine ⟨by simpa [hkind] using hB, fun i => ?_⟩
    rw [List.cons_append, hr i t _ hkind htext]
    exact (h cont rest hcont hrest).2 (i, t)

/-- Words for one parser, and then words for another. -/
theorem Fresh.bind {r : ι → Parser α} {g : ι → α → Parser β} (hr : Fresh S B r)
    (hg : Fresh S' S fun x : ι × α => g x.1 x.2) : Fresh S' B fun i => r i >>= g i := by
  obtain ⟨words, hwords, hr⟩ := hr
  obtain ⟨words', hwords', hg⟩ := hg
  refine ⟨words ++ words', hwords.append hwords', fun cont rest hcont hrest => ?_⟩
  obtain ⟨c, c', rfl, hc, hc'⟩ := List.map_eq_append_iff.mp hcont
  obtain ⟨hS, hg⟩ := hg c' rest hc' hrest
  obtain ⟨hB, hr⟩ := hr c (c' ++ rest) hc hS
  rw [List.append_assoc]
  refine ⟨hB, fun i => ?_⟩
  obtain ⟨a, ha⟩ := hr i
  obtain ⟨b, hb⟩ := hg (i, a)
  exact ⟨b, (bind_run ha (g i)).trans hb⟩

/-- What is done with an answer takes no words. -/
theorem Fresh.map {r : ι → Parser α} (h : Fresh S B r) (f : ι → α → β) :
    Fresh S B fun i => r i >>= fun a => pure (f i a) :=
  h.bind (fresh_nil (fun _ h => h) fun _ _ _ => ⟨_, rfl⟩)

/-- An expected token is a word that starts a completion. -/
theorem Fresh.expect {g : ι → Token → Parser α} {kind : Kind} {text : String}
    {fault : ι → Kind → ParseFault} (hk : kind ≠ .eof) (hword : Scan.Spells text.toList kind text)
    (hB : B kind) (h : Fresh S Any fun x : ι × Token => g x.1 x.2) :
    Fresh S B fun i => expect kind (fault i) >>= g i := by
  refine fresh_cons g hword (fun i t us ht _ => ?_) hB h
  rw [bind_run (expect_cons ht hk (fault i) us)]

/-! ## Decided parsers -/

/-- A parser after tokens that are known. -/
def after (v : List Token) (p : Parser α) : Parser α := fun us => p (v ++ us)

/-- With the tokens `w` before it, a rest is left over by `q` if it starts as `rest` does or with a
token of a kind in `S`. -/
def Transfers (S : Kind → Prop) (q : Parser α) (w : List Token) (a : α) (rest : List Token) :
    Prop :=
  ∀ rest', next rest' = next rest ∨ S (next rest').kind → q (w ++ rest') = .ok (a, rest')

/-- What `p` does with `ts` is decided by what it takes and the next token, as the head of this
module says. -/
structure Sure (S B : Kind → Prop) (p r : Parser α) (ts : List Token) : Prop where
  ok : ∀ {a : α} {rest : List Token}, p ts = .ok (a, rest) →
    ∃ w, ts = w ++ rest ∧ Inner w ∧ Transfers S p w a rest ∧ Transfers S r w a rest
  error : ∀ {e : ParseError}, Ended ts → p ts = .error (.invalid e) →
    ∃ w t us, ts = w ++ t :: us ∧ Inner w ∧ e.place = some t.place ∧
      (∀ us', p (w ++ t :: us') = .error (.invalid e)) ∧ Viable S B r w

namespace Sure

/-- A completion of what is decided may start with more kinds of token. -/
theorem weaken (h : Sure S B p r ts) (hB : ∀ k, B k → B' k) : Sure S B' p r ts where
  ok := h.ok
  error := by
    intro e hts he
    obtain ⟨w, t, us, hsplit, hw, hplace, hsame, hviable⟩ := h.error hts he
    exact ⟨w, t, us, hsplit, hw, hplace, hsame, hviable.weaken hB⟩

/-- What is decided before some kinds of token is decided before fewer. -/
theorem narrow (h : Sure S B p r ts) (hS : ∀ k, S' k → S k) : Sure S' B p r ts where
  ok := by
    intro a rest hok
    obtain ⟨w, hsplit, hw, hp, hr⟩ := h.ok hok
    exact ⟨w, hsplit, hw, fun rest' hrest' => hp rest' (hrest'.imp_right (hS _)),
      fun rest' hrest' => hr rest' (hrest'.imp_right (hS _))⟩
  error := by
    intro e hts he
    obtain ⟨w, t, us, hsplit, hw, hplace, hsame, words, hwords, hviable⟩ := h.error hts he
    exact ⟨w, t, us, hsplit, hw, hplace, hsame, words, hwords, fun cont rest hcont hrest =>
      hviable cont rest hcont (hS _ hrest)⟩

/-- Where it starts may be left open. -/
theorem any (h : Sure S B p r ts) : Sure S Any p r ts :=
  h.weaken fun _ _ => trivial

/-- Nothing is asked of a parser that gives up. -/
theorem of_tooDeep (h : p ts = .error .tooDeep) : Sure S B p r ts := by
  constructor
  · intro a rest hok
    rw [h] at hok
    cases hok
  · intro e _ he
    rw [h] at he
    cases he

/-- A parser that takes nothing. -/
theorem stays {a : α}
    (hp : ∀ rest, next rest = next ts ∨ S (next rest).kind → p rest = .ok (a, rest))
    (hr : ∀ rest, next rest = next ts ∨ S (next rest).kind → r rest = .ok (a, rest)) :
    Sure S B p r ts := by
  have hts := hp ts (.inl rfl)
  constructor
  · intro b rest hok
    rw [hts] at hok
    cases hok
    exact ⟨[], rfl, inner_nil, hp, hr⟩
  · intro e _ he
    rw [hts] at he
    cases he

protected theorem pure (a : α) : Sure S B (pure a) (pure a) ts :=
  stays (fun _ _ => rfl) (fun _ _ => rfl)

/-- A parser that refuses the next token. -/
theorem refuses (fault : ParseFault)
    (hp : ∀ us, next us = next ts → p us = .error (.invalid ⟨fault, some (next ts).place⟩))
    (hr : Viable S B r []) : Sure S B p r ts := by
  constructor
  · intro a rest hok
    rw [hp ts rfl] at hok
    cases hok
  · intro e hts he
    rw [hp ts rfl] at he
    cases he
    obtain ⟨us, hus⟩ := hts.eq_cons
    exact ⟨[], next ts, us, hus, inner_nil, rfl, fun us' => hp (next ts :: us') rfl, hr⟩

/-- A parser that takes some tokens first. -/
theorem past (hv : Inner v) (hne : v ≠ []) (hp : ∀ us, p (v ++ us) = p' us)
    (hr : ∀ us, r (v ++ us) = r' us) (h : Sure S Any p' r' us) : Sure S B p r (v ++ us) := by
  constructor
  · intro a rest hok
    rw [hp] at hok
    obtain ⟨w, rfl, hw, htransfers, htransfers'⟩ := h.ok hok
    refine ⟨v ++ w, by simp, hv.append hw, fun rest' hrest' => ?_, fun rest' hrest' => ?_⟩
    · rw [List.append_assoc, hp]
      exact htransfers rest' hrest'
    · rw [List.append_assoc, hr]
      exact htransfers' rest' hrest'
  · intro e hts he
    rw [hp] at he
    obtain ⟨w, t, vs, rfl, hw, hplace, hsame, words, hwords, hviable⟩ :=
      h.error (hts.of_append hv) he
    refine ⟨v ++ w, t, vs, by simp, hv.append hw, hplace, fun us' => ?_, words, hwords, ?_⟩
    · rw [List.append_assoc, hp]
      exact hsame us'
    · intro cont rest hcont hrest
      refine ⟨fun hnil => absurd (List.append_eq_nil_iff.mp hnil).1 hne, ?_⟩
      rw [List.append_assoc, hr]
      exact (hviable cont rest hcont hrest).2

/-- A parser that was considered after some tokens. -/
theorem of_after (hv : Inner v) (hne : v ≠ []) (h : Sure S Any (after v p) (after v r) us) :
    Sure S B p r (v ++ us) :=
  past hv hne (fun _ => rfl) (fun _ => rfl) h

/-- A parser that takes the next token first. -/
theorem take (ht : t.kind ≠ .eof) (hp : ∀ us, p (t :: us) = p' us) (hr : ∀ us, r (t :: us) = r' us)
    (h : Sure S Any p' r' us) : Sure S B p r (t :: us) :=
  past (inner_singleton ht) (by simp) hp hr h

/-- A choice that depends on the kind of the next token alone, for a parser that takes it or
refuses it. -/
theorem of_first {C : Kind → Prop} (hC : C (next ts).kind)
    (hp : ∀ us, C (next us).kind → p us = p' us) (hr : ∀ us, C (next us).kind → r us = r' us)
    (h : Sure S B p' r' ts) (hB : ∀ k, B k → C k)
    (hless : ∀ {a : α} {rest : List Token}, p' ts = .ok (a, rest) → rest.length < ts.length) :
    Sure S B p r ts := by
  constructor
  · intro a rest hok
    rw [hp ts hC] at hok
    have hlt := hless hok
    obtain ⟨w, rfl, hw, htransfers, htransfers'⟩ := h.ok hok
    cases w with
    | nil => exact absurd hlt (Nat.lt_irrefl _)
    | cons t w =>
      refine ⟨t :: w, rfl, hw, fun rest' hrest' => ?_, fun rest' hrest' => ?_⟩
      · rw [hp _ (show C (next (t :: w ++ rest')).kind from hC)]
        exact htransfers rest' hrest'
      · rw [hr _ (show C (next (t :: w ++ rest')).kind from hC)]
        exact htransfers' rest' hrest'
  · intro e hts he
    rw [hp ts hC] at he
    obtain ⟨w, t, us, rfl, hw, hplace, hsame, words, hwords, hviable⟩ := h.error hts he
    refine ⟨w, t, us, rfl, hw, hplace, fun us' => ?_, words, hwords,
      fun cont rest hcont hrest => ?_⟩
    · -- the next token is among those taken, or the refused one
      have hfirst : C (next (w ++ t :: us')).kind := by
        cases w <;> exact hC
      rw [hp _ hfirst]
      exact hsame us'
    · obtain ⟨hnil, ha⟩ := hviable cont rest hcont hrest
      refine ⟨hnil, ?_⟩
      have hfirst : C (next (w ++ (cont ++ rest))).kind := by
        cases w with
        | nil => exact hB _ (hnil rfl)
        | cons => exact hC
      rw [hr _ hfirst]
      exact ha

end Sure

/-! ## Sequences -/

/-- A sequence refuses where its first half does, or its second one after it. -/
theorem bind_error {p : Parser α} {f : α → Parser β} {ts : List Token} {e : Refusal} :
    (p >>= f) ts = .error e ↔
      p ts = .error e ∨ ∃ a mid, p ts = .ok (a, mid) ∧ f a mid = .error e := by
  simp only [bind, StateT.bind, Except.bind]
  cases hp : p ts with
  | error e' => simp
  | ok x =>
    constructor
    · exact fun h => .inr ⟨x.1, x.2, rfl, h⟩
    · rintro (h | ⟨a, mid, h, he⟩)
      · cases h
      · cases h
        exact he

namespace Sure

variable {f g : α → Parser β}

/-- A parser and another after it. The completion of what the first one refuses is followed by words
for the second. That they go together takes two provisos: what follows nothing at all starts as it
should, and the first parser's next token is not left to chance where the second takes nothing. -/
theorem bind (hp : Sure S B p r ts)
    (hf : ∀ {a : α} {rest : List Token}, p ts = .ok (a, rest) → rest.length ≤ ts.length →
      Sure S' S (f a) (g a) rest)
    (hfresh : Fresh S' S g)
    (hfirst : (∀ k, S k → B k) ∨
      ∀ {a : α} {rest : List Token}, p ts = .ok (a, rest) → rest.length < ts.length)
    (hlast : (∀ k, S' k → S k) ∨ ∀ {a : α} {mid rest : List Token} {b : β},
      p ts = .ok (a, mid) → f a mid = .ok (b, rest) → rest.length < mid.length) :
    Sure S' B (p >>= f) (r >>= g) ts := by
  constructor
  · intro b rest hok
    obtain ⟨a, mid, ha, hb⟩ := bind_ok.mp hok
    obtain ⟨w, rfl, hw, hpt, hrt⟩ := hp.ok ha
    obtain ⟨w', rfl, hw', hft, hgt⟩ := (hf ha (by simp)).ok hb
    have hmid : ∀ rest', next rest' = next rest ∨ S' (next rest').kind →
        next (w' ++ rest') = next (w' ++ rest) ∨ S (next (w' ++ rest')).kind := by
      intro rest' hrest'
      cases w' with
      | nil =>
        rcases hrest' with hsame | hkind
        · exact .inl hsame
        · rcases hlast with hsub | hless
          · exact .inr (hsub _ hkind)
          · exact absurd (hless ha hb) (Nat.lt_irrefl _)
      | cons t w' => exact .inl rfl
    refine ⟨w ++ w', by simp, hw.append hw', fun rest' hrest' => ?_, fun rest' hrest' => ?_⟩
    · rw [List.append_assoc, bind_run (hpt _ (hmid rest' hrest'))]
      exact hft rest' hrest'
    · rw [List.append_assoc, bind_run (hrt _ (hmid rest' hrest'))]
      exact hgt rest' hrest'
  · intro e hts hbind
    rcases bind_error.mp hbind with he | ⟨a, mid, ha, he⟩
    -- the first parser refuses a token
    · obtain ⟨w, t, us, rfl, hw, hplace, hsame, words, hwords, hviable⟩ := hp.error hts he
      obtain ⟨words', hwords', hfresh⟩ := hfresh
      refine ⟨w, t, us, rfl, hw, hplace, fun us' => bind_error.mpr (.inl (hsame us')),
        words ++ words', hwords.append hwords', fun cont rest hcont hrest => ?_⟩
      obtain ⟨c, c', rfl, hc, hc'⟩ := List.map_eq_append_iff.mp hcont
      obtain ⟨hS, hg⟩ := hfresh c' rest hc' hrest
      obtain ⟨hnil, a, ha⟩ := hviable c (c' ++ rest) hc hS
      obtain ⟨b, hb⟩ := hg a
      rw [List.append_assoc]
      exact ⟨hnil, b, by rw [bind_run ha, hb]⟩
    -- the second one does, after what the first has taken
    · obtain ⟨w, rfl, hw, hpt, hrt⟩ := hp.ok ha
      obtain ⟨w', t, us, rfl, hw', hplace, hsame, words, hwords, hviable⟩ :=
        (hf ha (by simp)).error (hts.of_append hw) he
      refine ⟨w ++ w', t, us, by simp, hw.append hw', hplace, fun us' => ?_, words, hwords,
        fun cont rest hcont hrest => ?_⟩
      · have hnext : next (w' ++ t :: us') = next (w' ++ t :: us) := by cases w' <;> rfl
        rw [List.append_assoc, bind_run (hpt _ (.inl hnext))]
        exact hsame us'
      · obtain ⟨hnil, b, hb⟩ := hviable cont rest hcont hrest
        refine ⟨fun h => ?_, b, ?_⟩
        · obtain ⟨rfl, rfl⟩ := List.append_eq_nil_iff.mp h
          rcases hfirst with hsub | hless
          · exact hsub _ (hnil rfl)
          · exact absurd (hless ha) (Nat.lt_irrefl _)
        · have hmid : next (w' ++ (cont ++ rest)) = next (w' ++ t :: us) ∨
              S (next (w' ++ (cont ++ rest))).kind := by
            cases w' with
            | nil => exact .inr (hnil rfl)
            | cons => exact .inl rfl
          rw [List.append_assoc, bind_run (hrt _ hmid), hb]

/-- Something is taken by two parsers if it is by the first one. -/
theorem bind_lessens (hp : Lessens p)
    (hf : ∀ {a : α} {rest : List Token}, p ts = .ok (a, rest) → Sure S B (f a) (g a) rest) {b : β}
    {rest : List Token} (h : (p >>= f) ts = .ok (b, rest)) : rest.length < ts.length := by
  obtain ⟨a, mid, ha, hb⟩ := bind_ok.mp h
  obtain ⟨w, rfl, -⟩ := (hf ha).ok hb
  have := hp ha
  simp only [List.length_append] at this
  omega

/-- A parser whose result is changed. -/
theorem map (hp : Sure S B p r ts) (f : α → β) :
    Sure S B (p >>= fun a => pure (f a)) (r >>= fun a => pure (f a)) ts := by
  constructor
  · intro b rest hok
    obtain ⟨a, mid, ha, hb⟩ := bind_ok.mp hok
    obtain ⟨rfl, rfl⟩ := pure_ok.mp hb
    obtain ⟨w, hsplit, hw, hpt, hrt⟩ := hp.ok ha
    refine ⟨w, hsplit, hw, fun rest' hrest' => ?_, fun rest' hrest' => ?_⟩
    · rw [bind_run (hpt rest' hrest')]
      rfl
    · rw [bind_run (hrt rest' hrest')]
      rfl
  · intro e hts hbind
    rcases bind_error.mp hbind with he | ⟨a, mid, ha, he⟩
    · obtain ⟨w, t, us, hsplit, hw, hplace, hsame, words, hwords, hviable⟩ := hp.error hts he
      refine ⟨w, t, us, hsplit, hw, hplace, fun us' => bind_error.mpr (.inl (hsame us')), words,
        hwords, fun cont rest hcont hrest => ?_⟩
      obtain ⟨hnil, a, ha⟩ := hviable cont rest hcont hrest
      exact ⟨hnil, f a, by rw [bind_run ha]; rfl⟩
    · cases he

/-- A token of some kind, and another parser after it. -/
theorem expect {kind : Kind} {text : String} {fault : Kind → ParseFault} {f g : Token → Parser β}
    (hk : kind ≠ .eof) (hword : Scan.Spells text.toList kind text) (hB : B kind)
    (hf : ∀ {t : Token} {us : List Token}, ts = t :: us → t.kind = kind →
      Sure S Any (f t) (g t) us)
    (hfresh : Fresh S Any g) :
    Sure S B (Parser.expect kind fault >>= f) (Parser.expect kind fault >>= g) ts := by
  by_cases hkind : (next ts).kind = kind
  · cases hts : ts with
    | nil =>
      rw [hts] at hkind
      exact absurd hkind.symm hk
    | cons t us =>
      rw [hts, next_cons] at hkind
      refine take (hkind ▸ hk) (fun us => ?_) (fun us => ?_) (hf hts hkind)
      · rw [bind_run (expect_cons hkind hk fault us)]
      · rw [bind_run (expect_cons hkind hk fault us)]
  · refine refuses (fault (next ts).kind) (fun us hus => ?_) ?_
    · refine bind_error.mpr (.inl ?_)
      rw [Parser.expect, bind_run (current_run _), hus, if_neg hkind]
      rfl
    · have h : Fresh S B fun _ : Unit => Parser.expect kind fault >>= g :=
        .expect hk hword hB (hfresh.comp Prod.snd)
      exact h.viable ()

/-- A parser, a token that closes what it reads, and another parser after it. -/
theorem bind_expect {kind : Kind} {text : String} {fault : Kind → ParseFault}
    {f g : α → Token → Parser β} (hp : Sure S B p r ts) (hk : kind ≠ .eof)
    (hword : Scan.Spells text.toList kind text) (hS : S kind)
    (hf : ∀ {a : α} {t : Token} {rest : List Token}, p ts = .ok (a, t :: rest) →
      rest.length < ts.length → Sure S' Any (f a t) (g a t) rest)
    (hfresh : Fresh S' Any fun x : α × Token => g x.1 x.2)
    (hfirst : (∀ k, S k → B k) ∨
      ∀ {a : α} {rest : List Token}, p ts = .ok (a, rest) → rest.length < ts.length) :
    Sure S' B (p >>= fun a => Parser.expect kind fault >>= f a)
      (r >>= fun a => Parser.expect kind fault >>= g a) ts := by
  refine hp.bind (fun {a mid} ha hlen => ?_) (.expect hk hword hS hfresh) hfirst (.inr ?_)
  · refine .expect hk hword hS (fun {t rest} hrest _ => ?_) (hfresh.comp (Prod.mk a))
    subst hrest
    exact hf ha hlen
  · intro a mid rest b ha hbind
    obtain ⟨t, us, ht, hb⟩ := bind_ok.mp hbind
    obtain ⟨rfl, -⟩ := expect_ok ht hk
    have hlen : us.length < ts.length := by
      obtain ⟨w, rfl, -⟩ := hp.ok ha
      simp only [List.length_append, List.length_cons]
      omega
    obtain ⟨w, rfl, -⟩ := (hf ha hlen).ok hb
    simp only [List.length_append, List.length_cons]
    omega

end Sure

end Parser

end Avii
