import Avii.Proofs.Outcome
import Avii.Proofs.Syntax.Completeness

/-!
# The parser accepts exactly the programs

Both directions together: a list of tokens with one `eof`, its last, is parsed to a tree exactly
if it is a program with that tree (`program_accepts_iff`). That the tokens after the statements
are the `eof` and nothing else comes from `Leads`: no phrase takes an `eof`, so what is left
after the statements has the only one there is.
-/

namespace Avii.Syntax

open Avii.Parser

variable {ts rest : List Token} {t : Tree}

/-- The last token is `eof`, and no other is. -/
def EndsOnce (ts : List Token) : Prop :=
  ∃ body e, ts = body ++ [e] ∧ e.kind = .eof ∧ ∀ t ∈ body, t.kind ≠ .eof

/-- Where tokens lead up to an `eof`, only that is left. -/
theorem Leads.to_end (h : Leads ts rest) (hts : EndsOnce ts) (hrest : (next rest).kind = .eof) :
    ∃ e, e.kind = .eof ∧ rest = [e] := by
  obtain ⟨w, rfl, hw⟩ := h
  obtain ⟨body, e, hsplit, he, hbody⟩ := hts
  cases hr : rest.reverse with
  | nil =>
    -- then the last token would be among those led over
    rw [List.reverse_eq_nil_iff.mp hr, List.append_nil] at hsplit
    exact absurd he (hw e (by simp [hsplit]))
  | cons z zs =>
    have hz : rest = zs.reverse ++ [z] := by simpa using congrArg List.reverse hr
    rw [hz, ← List.append_assoc] at hsplit
    obtain ⟨hw', hze⟩ := List.append_inj' hsplit rfl
    cases hze
    cases hzs : zs.reverse with
    | nil => exact ⟨e, he, by rw [hz, hzs]; rfl⟩
    | cons y ys =>
      -- then an earlier token would be an `eof`
      rw [hz, hzs] at hrest
      exact absurd hrest (hbody y (by simp [← hw', hzs]))

/-- A program consists of the statements that are read. -/
theorem program_statements {n : Nat} (h : (program n).run ts = .ok t) :
    ∃ ss rest, statements (fun k => k = .eof) (statement n) ts = .ok (ss, rest) ∧
      t = .node .program none ss := by
  unfold Parser.run at h
  split at h
  next =>
    split at h
    next =>
      obtain ⟨r, hp, rfl⟩ := map_eq_ok.mp h
      obtain ⟨ss, rest, hss, htree⟩ := bind_ok.mp hp
      exact ⟨ss, rest, hss, (pure_ok.mp htree).1.symm⟩
    next => cases h
  next => cases h

/-- What a whole program gives has been read as statements, up to the end. -/
theorem program_reads {n : Nat} (h : (program n).run ts = .ok t) (hts : EndsOnce ts) :
    IsProgram ts t := by
  obtain ⟨ss, mid, hss, rfl⟩ := program_statements h
  rw [statements, bind_run (get_run _)] at hss
  have hd := statementsUpTo_reads (sound n).statement hss
  have hend := statementsUpTo_ends (by decide) (sound n).statement (Nat.le_refl _) hss
  obtain ⟨e, he, rfl⟩ := (derives_leads hd).to_end hts (by simpa using hend)
  exact ⟨ss, e, he, hd, rfl⟩

/-- Statements up to the end are a program. -/
theorem program_run {n : Nat} {ss : List Tree} {e : Token} (hts : EndsOnce ts)
    (h : ∀ rounds, ts.length ≤ rounds →
      statementsUpTo (fun k => k = .eof) (statement n) rounds ts = .ok (ss, [e])) :
    (program n).run ts = .ok (.node .program none ss) := by
  have hrun : program n ts = .ok (.node .program none ss, [e]) := by
    rw [program, bind_run ((statements_run _ _ ts).trans (h _ (Nat.le_refl _)))]
    rfl
  obtain ⟨body, last, rfl, hlast, -⟩ := hts
  rw [Parser.run, List.getLast?_concat]
  simp [hlast, hrun, Except.map]

/-- A program is parsed to its tree, with any budget that is large enough. -/
theorem program_runs (h : IsProgram ts t) (hts : EndsOnce ts) :
    Eventually fun n => (program n).run ts = .ok t := by
  obtain ⟨ss, e, he, hd, rfl⟩ := h
  refine (runs hd (fun k => k = .eof) (by simp) (by simp [he])).mono ?_
  intro n hn
  exact program_run hts hn

/-- The leaves of a program's tree are its tokens that count, in order. -/
theorem program_leaves (h : IsProgram ts t) : leaves t = leavesIn ts := by
  obtain ⟨ss, e, he, hd, rfl⟩ := h
  rw [derives_leaves hd, leavesIn_uncounted (by simp [counts, he])]
  simp [leaves, leavesIn]

/-- The parser accepts exactly the programs: for tokens with one `eof`, their last, it gives a
tree with some budget if and only if they are a program with that tree; then it gives it with
every budget from some one on, and the leaves of the tree are the tokens that count, each once
and in order. -/
theorem program_accepts_iff (ts : List Token) (hts : EndsOnce ts) (t : Tree) :
    ((∃ n, (program n).run ts = .ok t) ↔ IsProgram ts t) ∧
      (IsProgram ts t →
        (∃ N, ∀ n, N ≤ n → (program n).run ts = .ok t) ∧ leaves t = leavesIn ts) := by
  refine ⟨⟨?_, ?_⟩, ?_⟩
  · rintro ⟨n, hn⟩
    exact program_reads hn hts
  · intro h
    obtain ⟨N, hN⟩ := program_runs h hts
    exact ⟨N, hN N (Nat.le_refl N)⟩
  · intro h
    exact ⟨program_runs h hts, program_leaves h⟩

/-- For instance `x = 2;` is a program. -/
theorem program_accepts_assignment :
    ∃ ts t, EndsOnce ts ∧ IsProgram ts t ∧ leaves t = leavesIn ts ∧ t.children.length = 1 := by
  let ts : List Token :=
    [⟨.ident, "x", 1, 1⟩, ⟨.equals, "=", 1, 3⟩, ⟨.number, "2", 1, 5⟩, ⟨.semi, ";", 1, 6⟩,
      ⟨.eof, "", 1, 7⟩]
  let t : Tree := .node .program none [.node .assign (some 1)
    [.leaf ⟨.ident, "x", some 1, some 1⟩, .leaf ⟨.number, "2", some 1, some 5⟩]]
  have hts : EndsOnce ts := ⟨ts.dropLast, ts.getLast (by decide), by decide, by decide, by decide⟩
  have hp := program_accepts_iff ts hts t
  have h : IsProgram ts t := hp.1.mp ⟨20, rfl⟩
  exact ⟨ts, t, hts, h, (hp.2 h).2, rfl⟩

end Avii.Syntax
