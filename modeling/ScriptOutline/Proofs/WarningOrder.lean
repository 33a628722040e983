/-
Warnings stand in the order of the text.

A warning is raised behind the part that it is about and names the first token of that part, and
the readers that raise warnings call one another.  Along a derivation each warning names a token
that stands behind the one that the warning before it names and in front of what is read next,
`InOrder`.  In a text a token starts before all that follow it.
-/
import ScriptOutline.Proofs.Warnings

namespace ScriptOutline

open Semicolons

/-- The warnings belong to tokens from index `j` up to index `k`, each behind the one before,
and none to a semicolon that was put in. -/
inductive Along (m : Nat → Token) : Nat → List Warning → Nat → Prop where
  | nil {j k : Nat} (le : j ≤ k) : Along m j [] k
  | cons {j i k : Nat} {w : Warning} {ws : List Warning} (le : j ≤ i)
    (location : w.location = (m i).location) (read : (m i).isPutIn = false)
    (rest : Along m (i + 1) ws k) : Along m j (w :: ws) k

namespace Along

variable {m : Nat → Token} {j j' k l : Nat} {us vs : List Warning}

theorem later (h : Along m j us k) (hj : j' ≤ j) : Along m j' us k := by
  cases h with
  | nil le => exact .nil (Nat.le_trans hj le)
  | cons le location read rest => exact .cons (Nat.le_trans hj le) location read rest

theorem le (h : Along m j us k) : j ≤ k := by
  induction h with
  | nil le => exact le
  | cons le _ _ _ ih => omega

theorem append (h : Along m j us k) (h' : Along m k vs l) : Along m j (us ++ vs) l := by
  induction h with
  | nil le => exact h'.later le
  | cons le location read _ ih => exact .cons le location read (ih h')

end Along

/-- The warnings raised between two stages belong to tokens between them, in order. -/
def InOrder (m : Nat → Token) (x y : Stage) : Prop :=
  ∃ ws, y.warnings = x.warnings ++ ws ∧ Along m x.index ws y.index

section

variable {m : Nat → Token} {n : Nat} {x y z : Stage} {ns : List Node}

theorem InOrder.quiet (hw : y.warnings = x.warnings) (hi : x.index ≤ y.index) : InOrder m x y :=
  ⟨[], by rw [hw, List.append_nil], .nil hi⟩

theorem InOrder.trans (h : InOrder m x y) (h' : InOrder m y z) : InOrder m x z := by
  obtain ⟨us, hus, hfirst⟩ := h
  obtain ⟨vs, hvs, hsecond⟩ := h'
  exact ⟨us ++ vs, by rw [hvs, hus, List.append_assoc], hfirst.append hsecond⟩

theorem InOrder.one {j k : Nat} {cause : WarningCause} (hj : x.index ≤ j)
    (hread : (m j).isPutIn = false) (hk : j < k) : InOrder m x ((x.move k).warned (m j) cause) :=
  ⟨_, rfl, .cons hj rfl hread (.nil hk)⟩

theorem Token.isPutIn_of_isPunctuation {t : Token} {value : String}
    (h : t.isPunctuation value = true) (hvalue : value ≠ ";") : t.isPutIn = false := by
  simp only [isPunctuation, Bool.and_eq_true, beq_iff_eq] at h
  simp [isPutIn, isPunctuation, h.2, hvalue]

theorem Token.isPutIn_of_endsExpression {t : Token} (h : t.endsExpression = false) :
    t.isPutIn = false := by
  simp only [endsExpression, Bool.or_eq_false_iff] at h
  rw [isPutIn, h.1.1.2, Bool.and_false]

theorem PathRead.inOrder {path : Option SymbolPath} (h : PathRead m x path y) : InOrder m x y := by
  cases h with
  | known lt _ => exact .quiet rfl (Nat.le_of_lt lt)
  | computed lt bracket behind =>
    exact .one (Nat.le_of_lt lt) (Token.isPutIn_of_isPunctuation bracket (by decide)) behind

theorem TailRead.inOrder {tail : Option (List TokenTree)} (h : TailRead m x tail y) :
    InOrder m x y := by
  cases h with
  | none => exact .quiet rfl (Nat.le_refl _)
  | some lt _ runsOn =>
    exact .one (Nat.le_refl _) (Token.isPutIn_of_endsExpression runsOn.continues) lt

theorem HeadRead.inOrder {head : FunctionHead} (h : HeadRead x head y) : InOrder m x y :=
  .quiet h.warnings (Nat.le_of_lt h.index_lt)

theorem Reads.inOrder (h : Reads m n x ns y) : InOrder m x y := by
  induction h with
  | nil | declaration | returnNothing | primitive => exact .quiet rfl (Nat.le_refl _)
  | append _ _ ih ih' => exact ih.trans ih'
  | @passing n j k x y ns before _ behind ih =>
    have hbefore : InOrder m x (x.move j) := .quiet rfl before
    have hbehind : InOrder m y (y.move k) := .quiet rfl behind
    exact hbefore.trans (ih.trans hbehind)
  | dropping _ dropped ih => exact ih.trans dropped.inOrder
  | deeper _ _ ih | recommented _ _ ih | returnValue _ ih | instantiation _ ih | block _ ih
  | array _ ih => exact ih
  | @assignment n x y comments target operator value _ _ _ ih =>
    have hroot : InOrder m x x.next := .quiet rfl (Nat.le_succ _)
    exact hroot.trans ih
  | object kept | expression kept => exact .quiet rfl kept.le
  | skipped lt kept => exact .one (Nat.le_refl _) (kept.top _ List.mem_cons_self) lt
  | function named _ ih => exact named.inOrder.trans ih
  | immediate named _ _ ih ih' => exact named.inOrder.trans (ih.trans ih')
  | reference root rest => exact root.inOrder.trans rest.inOrder
  | call root _ ih => exact root.inOrder.trans ih
  | invocation root _ _ rest ih ih' =>
    exact root.inOrder.trans (ih.trans (ih'.trans rest.inOrder))

end

theorem TokenFeed.start_lt_succ [IdentifierTable] {l : Lexer} {i : Nat}
    (hg : (ofLexer l).Given (ofLexer l).raw (i + 1)) (he : ((ofLexer l).raw i).isEof = false) :
    ((ofLexer l).raw i).location.span.start < ((ofLexer l).raw (i + 1)).location.span.start := by
  obtain ⟨l', hitem, hnext⟩ := item_ofLexer l i
  rw [hg i (Nat.le_succ i)] at hitem
  rw [hg (i + 1) (Nat.le_refl _)] at hnext
  rcases hnext with ⟨-, hnext, -⟩ | ⟨-, -, hstay⟩
  · exact Nat.lt_of_lt_of_le (Lexer.start_lt_next hitem.symm he) (Lexer.offset_le_start hnext.symm)
  · exact absurd (Lexer.offset_lt_next hitem.symm he) hstay

namespace Semicolons

variable {r : Nat → Token} {j k : Nat}

/-- A semicolon that is put in starts where the token behind it does. -/
theorem start_corrected (r : Nat → Token) (k : Nat) :
    (corrected r k).location.span.start = (r (place r k).source).location.span.start := by
  rw [corrected]
  cases place r k <;> rfl

/-- Behind a token of the source comes the next one, or a semicolon before it. -/
theorem source_lt_of_lt (hread : (corrected r j).isPutIn = false) (h : j < k) :
    (place r j).source < (place r k).source := by
  refine Nat.lt_of_lt_of_le ?_ (source_mono r h)
  rw [corrected] at hread
  rw [place]
  cases hp : place r j with
  | token i =>
    rw [Place.next]
    split
    · exact Nat.lt_succ_self i
    · exact Nat.lt_succ_self i
  | semicolon i =>
    rw [hp] at hread
    cases hread

/-- Starts that grow from each token of the source to the next grow along the corrected
sequence from each token that is no semicolon put in. -/
theorem start_lt_of_lt {last : Nat}
    (hr : ∀ i, i < (place r last).source →
      (r i).location.span.start < (r (i + 1)).location.span.start)
    (hread : (corrected r j).isPutIn = false) (hjk : j < k) (hk : k ≤ last) :
    (corrected r j).location.span.start < (corrected r k).location.span.start := by
  rw [start_corrected, start_corrected]
  have hlast := source_mono r hk
  have hlt := source_lt_of_lt hread hjk
  generalize (place r j).source = p at hlt
  generalize (place r k).source = q at hlt hlast
  induction hlt with
  | refl => exact hr p (by omega)
  | @step q hpq ih => exact Nat.lt_trans (ih (by omega)) (hr q (by omega))

end Semicolons

theorem Along.exists_index {m : Nat → Token} {j k : Nat} {ws : List Warning}
    (h : Along m j ws k) : ∀ w ∈ ws, ∃ i, j ≤ i ∧ i < k ∧ w.location = (m i).location := by
  induction h with
  | nil => simp
  | @cons j i k w ws le location _ rest ih =>
    intro v hv
    rcases List.mem_cons.1 hv with rfl | hv
    · exact ⟨i, le, rest.le, location⟩
    · obtain ⟨i', hi', hk, hv⟩ := ih v hv
      exact ⟨i', by omega, hk, hv⟩

/-- Warnings in order along tokens with growing starts have growing starts. -/
theorem Along.pairwise {m : Nat → Token} {j k : Nat} {ws : List Warning} (h : Along m j ws k)
    (hm : ∀ i i', (m i).isPutIn = false → i < i' → i' ≤ k →
      (m i).location.span.start < (m i').location.span.start) :
    ws.Pairwise fun v w => v.location.span.start < w.location.span.start := by
  induction h with
  | nil => exact .nil
  | @cons j i k w ws _ location read rest ih =>
    refine .cons (fun v hv => ?_) (ih hm)
    obtain ⟨i', hi', hk, hv⟩ := rest.exists_index v hv
    rw [location, hv]
    exact hm i i' read hi' (Nat.le_of_lt hk)

/-- Of the tokens that have been met, one that is no semicolon put in starts before all that
follow it. -/
theorem TokenStream.Arrived.start_lt [IdentifierTable] {text : String} {t : TokenStream}
    {i j k : Nat} (h : Arrived (.ofText text) (TokenFeed.ofText text).raw k t)
    (hread : (corrected (TokenFeed.ofText text).raw i).isPutIn = false) (hij : i < j) (hj : j ≤ k) :
    (corrected (TokenFeed.ofText text).raw i).location.span.start <
      (corrected (TokenFeed.ofText text).raw j).location.span.start := by
  refine start_lt_of_lt (fun p hp => ?_) hread hij hj
  have hgiven := h.at_.given (by omega)
  exact TokenFeed.start_lt_succ (given_mono hgiven hp) (h.inside.raw p hp)

theorem Script.pairwise_warnings [IdentifierTable] {text : String} {s : Script}
    (h : ofText text = .ok s) :
    s.warnings.Pairwise fun v w => v.location.span.start < w.location.span.start := by
  obtain ⟨x, t, hreads, hwarnings, harrived⟩ := derivation h
  obtain ⟨ws, hws, hinOrder⟩ := hreads.inOrder
  obtain rfl : ws = s.warnings := by rw [← hwarnings, hws]; rfl
  exact hinOrder.pairwise fun i i' hread hlt hle => harrived.start_lt hread hlt hle

theorem DiagnosticLog.sort_eq_self {l : DiagnosticLog}
    (h : l.entries.Pairwise fun a b => a.precedes b = true) : l.sort = l := by
  rw [sort, List.mergeSort_of_pairwise h]

theorem Diagnostic.precedes_of_start {a b : Diagnostic} (hfile : a.file = b.file)
    (h : a.start ≤ b.start) : a.precedes b = true := by
  rw [precedes, hfile]
  cases b.file <;> simp [h]

/-- The warnings of a text come in the order in which the text has the places that they are
about, no two at one place, so putting them in order changes nothing. -/
theorem Script.warnings_in_order [IdentifierTable] {text : String} {s : Script}
    (h : ofText text = .ok s) :
    (∃ spans : List Span, s.diagnostics.entries.map (·.location.map (·.span)) = spans.map some ∧
      (spans.map (·.start)).Pairwise (· < ·)) ∧
    ∀ file, (s.diagnostics.setFile file).sort = s.diagnostics.setFile file := by
  have hstarts := pairwise_warnings h
  refine ⟨⟨s.warnings.map (·.location.span), ?_, ?_⟩, fun file => ?_⟩
  · rw [diagnostics, List.map_map, List.map_map]
    rfl
  · rw [List.map_map]
    exact List.pairwise_map.2 hstarts
  · have hentries : (s.diagnostics.setFile file).entries =
        s.warnings.map fun w => w.toDiagnostic.inFile file := by
      rw [diagnostics, DiagnosticLog.setFile, List.map_map]
      rfl
    refine DiagnosticLog.sort_eq_self ?_
    rw [hentries, List.pairwise_map]
    refine hstarts.imp fun {v w} hlt => ?_
    exact Diagnostic.precedes_of_start rfl (Nat.le_of_lt hlt)

/-- Warnings of all kinds: in an argument of a path that is not known, behind it in its tail, and
in the body of a function whose own tail is dropped. -/
theorem Script.warnings_in_order_nested :
    ∃ s, ofText "a[b](c[d] + 1).e[f] - 2; -function () \x7b break \x7d() + 3" = .ok s ∧
      s.diagnostics.entries.map (·.message.code) =
        ["DS2001", "DS2001", "DS2003", "DS2001", "DS2003", "DS2002", "DS2003"] ∧
      (∃ spans : List Span, s.diagnostics.entries.map (·.location.map (·.span)) = spans.map some ∧
        (spans.map (·.start)).Pairwise (· < ·)) ∧
      ∀ file, (s.diagnostics.setFile file).sort = s.diagnostics.setFile file := by
  have hfull : (ofText "a[b](c[d] + 1).e[f] - 2; -function () \x7b break \x7d() + 3").toOption.any
      (fun s => s.diagnostics.entries.map (·.message.code) ==
        ["DS2001", "DS2001", "DS2003", "DS2001", "DS2003", "DS2002", "DS2003"]) = true := by
    decide +kernel
  obtain ⟨s, hs, hcodes⟩ := exists_of_any hfull
  exact ⟨s, hs, eq_of_beq hcodes, warnings_in_order hs⟩

end ScriptOutline
