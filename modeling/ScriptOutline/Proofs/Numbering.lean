/-
The numbers of functions without a name.

A function is counted when its head is read, before what is read in its body and behind it.
That is the order in which a walk over the finished script meets it, so the numbers met
there count up from one.
-/
import ScriptOutline.Proofs.TracedScript
import ScriptOutline.Script.Walk

namespace ScriptOutline

def FunctionName.number? : FunctionName → Option Nat
  | named _ => none
  | anonymous number => some number

namespace Node

theorem functionsAll_append (ms ns : List Node) :
    functionsAll (ms ++ ns) = functionsAll ms ++ functionsAll ns := by
  induction ms with
  | nil => rfl
  | cons m ms ih => rw [List.cons_append, functionsAll, functionsAll, ih, List.append_assoc]

@[simp] theorem functionsAll_singleton (n : Node) : functionsAll [n] = functions n :=
  List.append_nil _

@[simp] theorem functions_withComments (c : List Comment) (n : Node) :
    (n.withComments c).functions = n.functions := by
  cases n <;> rfl

/-- The numbers of the functions without a name, in the order of a walk. -/
def numbers (body : List Node) : List Nat := (functionsAll body).filterMap (·.name.number?)

theorem numbers_append (ms ns : List Node) : numbers (ms ++ ns) = numbers ms ++ numbers ns := by
  rw [numbers, functionsAll_append, List.filterMap_append]
  rfl

/-- A function stands before what is in its body and behind it. -/
theorem numbers_behind (head : FunctionHead) (heads : List FunctionHead) :
    (head :: heads).filterMap (·.name.number?) =
      head.name.number?.toList ++ heads.filterMap (·.name.number?) := by
  cases h : head.name.number? <;> simp [h]

end Node

open Node

variable {m : Nat → Token} {n : Nat} {x y : Stage} {ns : List Node}

theorem PathRead.anonymous_eq {path : Option SymbolPath} (h : PathRead m x path y) :
    y.anonymous = x.anonymous := by
  cases h with
  | known _ => rfl
  | computed _ _ _ => rfl

theorem TailRead.anonymous_eq {tail : Option (List TokenTree)} (h : TailRead m x tail y) :
    y.anonymous = x.anonymous := by
  cases h with
  | none => rfl
  | some _ _ _ => rfl

/-- A head without a name takes the number behind those that are counted. -/
theorem HeadRead.counts {head : FunctionHead} (h : HeadRead x head y) :
    List.range' 1 y.anonymous = List.range' 1 x.anonymous ++ head.name.number?.toList := by
  cases h with
  | named _ => exact (List.append_nil _).symm
  | anonymous _ =>
    have hnext : 1 + x.anonymous = x.anonymous + 1 := Nat.add_comm _ _
    simp [Stage.counted, FunctionName.number?, List.range'_1_concat, hnext]

/-- What is counted while nodes are read are the numbers in them. -/
theorem Reads.counts (h : Reads m n x ns y) :
    List.range' 1 y.anonymous = List.range' 1 x.anonymous ++ numbers ns := by
  induction h with
  | nil | declaration | returnNothing | primitive | object _ | expression _ | skipped _ _ =>
    exact (List.append_nil _).symm
  | append _ _ ih ih' => rw [ih', ih, numbers_append, List.append_assoc]
  | passing _ _ _ ih => exact ih
  | dropping _ dropped ih => rw [dropped.anonymous_eq, ih]
  | deeper _ _ ih => exact ih
  | recommented _ _ ih => simpa [numbers] using ih
  | returnValue _ ih | assignment _ _ _ ih | instantiation _ ih | block _ ih | array _ ih =>
    simpa [numbers, functions] using ih
  | function named _ ih =>
    rw [ih, named.counts, List.append_assoc]
    simp only [numbers, functionsAll_singleton, functions, numbers_behind]
  | immediate named _ _ ih ih' =>
    rw [ih', ih, named.counts, List.append_assoc, List.append_assoc]
    simp only [numbers, functionsAll_singleton, functions, numbers_behind, List.filterMap_append]
  | reference root rest =>
    rw [rest.anonymous_eq, root.anonymous_eq]
    exact (List.append_nil _).symm
  | call root _ ih =>
    rw [root.anonymous_eq] at ih
    simpa [numbers, functions] using ih
  | invocation root _ _ rest ih ih' =>
    rw [rest.anonymous_eq, ih', ih, root.anonymous_eq, List.append_assoc]
    simp [numbers, functions]

theorem FunctionName.text_anonymous_inj {i j : Nat} :
    (anonymous i).text = (anonymous j).text ↔ i = j := by
  constructor
  · intro h
    have hdigits : Nat.toDigits 10 i = Nat.toDigits 10 j := by
      simpa [text, Nat.toList_repr] using congrArg String.toList h
    simpa [Nat.ofDigitChars_ten_toDigits] using congrArg (Nat.ofDigitChars 10 · 0) hdigits
  · rintro rfl
    rfl

theorem FunctionName.map_text_generated (heads : List FunctionHead) :
    (heads.filter (·.name.isAnonymous)).map (·.name.text) =
      (heads.filterMap (·.name.number?)).map fun i => (anonymous i).text := by
  induction heads with
  | nil => rfl
  | cons head heads ih =>
    cases hname : head.name with
    | named t => simpa [hname, isAnonymous, number?] using ih
    | anonymous i => simpa [hname, isAnonymous, number?] using ih

/-- A walk over a script meets the functions without a name as one, two and so on up to the
number that were counted, so no two have the same name. -/
theorem Script.anonymous_numbered {feed : TokenFeed} {s : Script} (h : ofFeed feed = .ok s) :
    ∃ r, read (.ofFeed feed) = .ok s.body r ∧
      (functionsAll s.body).filterMap (·.name.number?) = List.range' 1 r.anonymous ∧
      (((functionsAll s.body).filter (·.name.isAnonymous)).map (·.name.text)).Nodup := by
  obtain ⟨r, hread, -⟩ := exists_read h
  obtain ⟨x, hreads, hcounted, -⟩ := derivation_of_read hread
  have hnumbers : numbers s.body = List.range' 1 r.anonymous := by
    rw [hcounted, hreads.counts]
    rfl
  refine ⟨r, hread, hnumbers, ?_⟩
  rw [FunctionName.map_text_generated]
  change ((numbers s.body).map _).Nodup
  rw [hnumbers]
  refine List.pairwise_map.2 (List.Pairwise.imp (fun hne htext => ?_) List.nodup_range')
  exact hne (FunctionName.text_anonymous_inj.1 htext)

/-- A function that is called where it stands, with a function in its body and one among its
arguments. -/
theorem Script.anonymous_numbered_called :
    ∃ s, ofFeed (.ofText "(function () \x7b f = function () \x7b\x7d \x7d)(function () \x7b\x7d)") =
        .ok s ∧
      (functionsAll s.body).filterMap (·.name.number?) = [1, 2, 3] ∧
      ∃ r, read (.ofFeed (.ofText
          "(function () \x7b f = function () \x7b\x7d \x7d)(function () \x7b\x7d)")) =
          .ok s.body r ∧
        (functionsAll s.body).filterMap (·.name.number?) = List.range' 1 r.anonymous ∧
        (((functionsAll s.body).filter (·.name.isAnonymous)).map (·.name.text)).Nodup := by
  have hfull : (ofFeed (.ofText
      "(function () \x7b f = function () \x7b\x7d \x7d)(function () \x7b\x7d)")).toOption.any
      (fun s => (functionsAll s.body).filterMap (·.name.number?) == [1, 2, 3]) = true := by
    decide +kernel
  obtain ⟨s, hs, hnumbers⟩ := exists_of_any hfull
  exact ⟨s, hs, eq_of_beq hnumbers, anonymous_numbered hs⟩

end ScriptOutline
