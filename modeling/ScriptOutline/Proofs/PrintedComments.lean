/-
Where the comments of a script are printed.

The comments before a statement are printed on the lines above it.  The exception is an
assignment that gives the name declared just before it its value: the two are one line,
which the comments of the declaration lead.

`statementLists` are the lists whose nodes are statements.  Each of them is printed
as a whole somewhere in a script, so what is said of the lines of one list holds of all.
-/
import ScriptOutline.Proofs.Warnings
import ScriptOutline.Script.Printer

namespace ScriptOutline

namespace Node

def body? : Node → Option (List Node)
  | block _ body | function _ _ body | immediate _ _ body _ => some body
  | _ => none

def bodies (ns : List Node) : List (List Node) := (preorderAll ns).filterMap body?

def statementLists (body : List Node) : List (List Node) := body :: bodies body

/-- Whether the second node gives the name that the first one declares its value. -/
def initializedBy : Node → Node → Bool
  | declaration _ _ name, assignment _ target operator _ =>
    Printer.initializes name target operator
  | _, _ => false

theorem bodies_node {n : Node} {ns : List Node} (h : preorder n = n :: preorderAll ns) :
    bodies [n] = n.body?.toList ++ bodies ns := by
  rw [bodies, preorderAll_singleton, h, List.filterMap_cons]
  cases n.body? <;> rfl

theorem bodies_append (ms ns : List Node) : bodies (ms ++ ns) = bodies ms ++ bodies ns := by
  rw [bodies, preorderAll_append, List.filterMap_append]
  rfl

theorem bodies_cons (n : Node) (ns : List Node) : bodies (n :: ns) = bodies [n] ++ bodies ns :=
  bodies_append [n] ns

@[simp] theorem bodies_block (c : List Comment) (body : List Node) :
    bodies [block c body] = body :: bodies body := bodies_node rfl

@[simp] theorem bodies_function (c : List Comment) (head : FunctionHead) (body : List Node) :
    bodies [function c head body] = body :: bodies body := bodies_node rfl

@[simp] theorem bodies_immediate (c : List Comment) (head : FunctionHead)
    (body arguments : List Node) :
    bodies [immediate c head body arguments] = body :: bodies body ++ bodies arguments := by
  rw [List.cons_append, ← bodies_append]
  exact bodies_node (by rw [preorder, preorderAll_append])

@[simp] theorem bodies_assignment (c : List Comment) (target : SymbolPath) (operator : String)
    (value : Node) : bodies [assignment c target operator value] = bodies [value] :=
  bodies_node (by rw [preorder, preorderAll_singleton])

@[simp] theorem bodies_returnValue (c : List Comment) (value : Node) :
    bodies [returnValue c value] = bodies [value] :=
  bodies_node (by rw [preorder, preorderAll_singleton])

@[simp] theorem bodies_instantiation (c : List Comment) (value : Node) :
    bodies [instantiation c value] = bodies [value] :=
  bodies_node (by rw [preorder, preorderAll_singleton])

@[simp] theorem bodies_call (c : List Comment) (callee : SymbolPath) (arguments : List Node) :
    bodies [call c callee arguments] = bodies arguments := bodies_node rfl

@[simp] theorem bodies_array (c : List Comment) (elements : List Node) :
    bodies [array c elements] = bodies elements := bodies_node rfl

@[simp] theorem bodies_invocation (c : List Comment) (path : Option SymbolPath)
    (arguments chain : List Node) (tail : Option (List TokenTree)) :
    bodies [invocation c path arguments chain tail] = bodies arguments ++ bodies chain := by
  rw [← bodies_append]
  exact bodies_node (by rw [preorder, preorderAll_append])

end Node

namespace Printer

open Node Piece

variable {o : PrintOptions} {level : Nat} {inner : List Piece} {items : List (List Piece)}
  {ns ms before after rest : List Node} {m n d a : Node} {c : List Comment}

theorem infix_braced (level : Nat) (inner : List Piece) : inner <:+: braced level inner := by
  cases inner with
  | nil => exact List.nil_infix
  | cons p ps =>
    exact ⟨[word "\x7b", newline], [indent level, word "\x7d"], by simp [braced]⟩

theorem infix_commaList {item : List Piece} (h : item ∈ items) : item <:+: commaList items := by
  induction items with
  | nil => cases h
  | cons first items ih =>
    cases items with
    | nil =>
      rw [List.mem_singleton.1 h]
      exact List.infix_rfl
    | cons second items =>
      rcases List.mem_cons.1 h with rfl | h
      · exact List.infix_append' [] item _
      · exact (ih h).trans ⟨first ++ [word ",", space], [], by simp [commaList]⟩

theorem infix_statement (n : Node) (inner : List Piece) : inner <:+: statement n inner := by
  cases n with
  | block | skipped => exact List.infix_rfl
  | declaration c w name => exact ⟨[word w.text, space], [word ";"], by simp [statement]⟩
  | function => exact ⟨[word "("], [word ")", word ";"], by simp [statement]⟩
  | _ => exact ⟨[], [word ";"], rfl⟩

theorem infix_initialized (w : DeclarationWord) (name : Token) (value : Node)
    (inner : List Piece) : inner <:+: initialized w name value inner := by
  have hplain : inner <:+: [word w.text, space, word name.value, space, word "=", space] ++ inner ++
      [word ";"] := ⟨_, _, rfl⟩
  cases value with
  | function c head body =>
    rw [initialized]
    split
    · exact List.infix_rfl
    · exact hplain
  | _ => exact hplain

theorem infix_line (o : PrintOptions) (level : Nat) (c : List Comment) (inner : List Piece) :
    inner <:+: line o level c inner :=
  ⟨leading o level c ++ [indent level], [newline], by simp [line]⟩

theorem infix_flatMap {f : List Piece → List Piece} {item : List Piece} (h : item ∈ items) :
    f item <:+: items.flatMap f := by
  obtain ⟨front, back, rfl⟩ := List.append_of_mem h
  exact ⟨front.flatMap f, back.flatMap f, by simp⟩

/-- Each list of statements in what is printed is printed somewhere in it. -/
def Holds (o : PrintOptions) (lists : List (List Node)) (pieces : List Piece) : Prop :=
  ∀ ms ∈ lists, ∃ level, statements o level ms <:+: pieces

theorem Holds.mono {lists : List (List Node)} {ps qs : List Piece} (h : Holds o lists ps)
    (hps : ps <:+: qs) : Holds o lists qs :=
  fun ms hms => (h ms hms).imp fun _ hl => hl.trans hps

theorem Holds.append {ls ls' : List (List Node)} {ps : List Piece} (h : Holds o ls ps)
    (h' : Holds o ls' ps) : Holds o (ls ++ ls') ps :=
  fun ms hms => (List.mem_append.1 hms).elim (h ms) (h' ms)

theorem Holds.ofItems
    (h : ∀ ms ∈ bodies ns, ∃ item ∈ items, ∃ level, statements o level ms <:+: item)
    {ps : List Piece} (hps : ∀ item ∈ items, item <:+: ps) : Holds o (bodies ns) ps := by
  intro ms hms
  obtain ⟨item, hitem, level, hl⟩ := h ms hms
  exact ⟨level, hl.trans (hps item hitem)⟩

theorem Holds.block {ps : List Piece} (h : Holds o (bodies ns) (statements o (level + 1) ns))
    (hps : braced level (statements o (level + 1) ns) <:+: ps) : Holds o (ns :: bodies ns) ps := by
  have hinner := (infix_braced level (statements o (level + 1) ns)).trans hps
  intro ms hms
  rcases List.mem_cons.1 hms with rfl | hms
  · exact ⟨level + 1, hinner⟩
  · exact (h.mono hinner) ms hms

def joined (o : PrintOptions) (level : Nat) : Node → Node → List Piece
  | .declaration _ w name, .assignment _ _ _ value =>
    initialized w name value (expression o level value)
  | _, _ => []

theorem exists_of_initializedBy (h : d.initializedBy n = true) :
    ∃ c w name c' target operator value,
      d = .declaration c w name ∧ n = .assignment c' target operator value ∧
        initializes name target operator = true := by
  unfold initializedBy at h
  split at h
  · exact ⟨_, _, _, _, _, _, _, rfl, rfl, h⟩
  · cases h

theorem statements_joined (h : d.initializedBy n = true) (rest : List Node) :
    statements o level (d :: n :: rest) =
      line o level d.comments (joined o level d n) ++ statements o level rest := by
  obtain ⟨c, w, name, c', target, operator, value, rfl, rfl, hi⟩ := exists_of_initializedBy h
  rw [statements, if_pos hi]
  rfl

theorem statements_single (h : ∀ a ∈ rest.head?, n.initializedBy a = false) :
    statements o level (n :: rest) =
      line o level n.comments (statement n (expression o level n)) ++ statements o level rest := by
  cases n with
  | declaration c w name =>
    cases rest with
    | nil => rfl
    | cons a rest =>
      cases a with
      | assignment c' target operator value =>
        have hi : initializes name target operator = false := h _ rfl
        have hnext : statements o level (.assignment c' target operator value :: rest) =
            line o level c' (assigned target operator (expression o level value) ++ [word ";"]) ++
              statements o level rest := rfl
        rw [statements, hnext, ← List.append_assoc]
        simp only [hi, Bool.false_eq_true, if_false]
        rfl
      | _ => rfl
  | _ => rfl

mutual
theorem expression_holds (o : PrintOptions) (level : Nat) (n : Node) :
    Holds o (bodies [n]) (expression o level n) := by
  cases n with
  | declaration | returnNothing | reference | object | primitive | expression | skipped =>
    exact nofun
  | block c body =>
    rw [bodies_block]
    exact .block (statements_holds o (level + 1) body) List.infix_rfl
  | function c head body =>
    rw [bodies_function]
    exact .block (statements_holds o (level + 1) body) ⟨_, [], List.append_nil _⟩
  | assignment c target operator value =>
    rw [bodies_assignment]
    refine (expression_holds o level value).mono
      ⟨path target ++ [space, word operator, space], [], ?_⟩
    simp [expression, assigned]
  | returnValue c value =>
    rw [bodies_returnValue]
    exact (expression_holds o level value).mono ⟨[word "return", space], [], List.append_nil _⟩
  | instantiation c value =>
    rw [bodies_instantiation]
    exact (expression_holds o level value).mono ⟨[word "new", space], [], List.append_nil _⟩
  | call c callee arguments =>
    rw [bodies_call]
    refine .ofItems (expressions_holds o level arguments) fun item hitem =>
      (infix_commaList hitem).trans ⟨path callee ++ [word "("], [word ")"], ?_⟩
    simp [expression]
  | array c elements =>
    rw [bodies_array]
    refine .ofItems (expressions_holds o level elements) fun item hitem =>
      (infix_commaList hitem).trans ⟨[word "["], lastComma elements ++ [word "]"], ?_⟩
    simp [expression]
  | invocation c p arguments chain t =>
    rw [bodies_invocation]
    refine .append (.ofItems (expressions_holds o level arguments) fun item hitem => ?_)
      (.ofItems (expressions_holds o level chain) fun item hitem => ?_)
    · refine (infix_commaList hitem).trans ⟨pathOrUnknown p ++ [word "("], word ")" ::
        (expressions o level chain).flatMap (word "." :: ·) ++ tail level t, ?_⟩
      simp [expression]
    · have hlink : item <:+: word "." :: item := ⟨[word "."], [], List.append_nil _⟩
      refine (hlink.trans (infix_flatMap (f := (word "." :: ·)) hitem)).trans ⟨pathOrUnknown p ++
        word "(" :: commaList (expressions o level arguments) ++ [word ")"], tail level t, ?_⟩
      simp [expression]
  | immediate c head body arguments => 
    rw [bodies_immediate]
    refine .append (.block (statements_holds o (level + 1) body) ?_)
      (.ofItems (expressions_holds o level arguments) fun item hitem => ?_)
    · exact ⟨word "(" :: functionHead head, [word ")", word "("] ++
        commaList (expressions o level arguments) ++ [word ")"], by simp [expression]⟩
    · refine (infix_commaList hitem).trans ⟨word "(" :: functionHead head ++
        braced level (statements o (level + 1) body) ++ [word ")", word "("], [word ")"], ?_⟩
      simp [expression]

theorem statements_holds (o : PrintOptions) (level : Nat) (ns : List Node) :
    Holds o (bodies ns) (statements o level ns) := by
  cases ns with
  | nil => exact nofun
  | cons n rest =>
    by_cases hsingle : ∀ a ∈ rest.head?, n.initializedBy a = false
    · rw [statements_single hsingle, bodies_cons]
      have hline := (infix_statement n (expression o level n)).trans
        (infix_line o level n.comments _)
      exact .append
        ((expression_holds o level n).mono (hline.trans (List.prefix_append _ _).isInfix))
        ((statements_holds o level rest).mono (List.suffix_append _ _).isInfix)
    · cases rest with
      | nil => exact absurd nofun hsingle
      | cons a rest =>
        have hjoin : n.initializedBy a = true := by simpa using hsingle
        cases n with
        | declaration c w name =>
          cases a with
          | assignment c' target operator value =>
            have hname : bodies [.declaration c w name] = [] := rfl
            rw [statements_joined hjoin, bodies_cons, hname, List.nil_append, bodies_cons,
              bodies_assignment]
            have hline := (infix_initialized w name value (expression o level value)).trans
              (infix_line o level c _)
            exact .append
              ((expression_holds o level value).mono (hline.trans (List.prefix_append _ _).isInfix))
              ((statements_holds o level rest).mono (List.suffix_append _ _).isInfix)
          | _ => cases hjoin
        | _ => cases hjoin

theorem expressions_holds (o : PrintOptions) (level : Nat) (ns : List Node) :
    ∀ ms ∈ bodies ns, ∃ item ∈ expressions o level ns, ∃ l, statements o l ms <:+: item := by
  cases ns with
  | nil => exact nofun
  | cons n ns =>
    intro ms hms
    rw [bodies_cons, List.mem_append] at hms
    rcases hms with hms | hms
    · obtain ⟨l, hl⟩ := expression_holds o level n ms hms
      exact ⟨_, List.mem_cons_self, l, hl⟩
    · obtain ⟨item, hitem, hl⟩ := expressions_holds o level ns ms hms
      exact ⟨item, List.mem_cons_of_mem _ hitem, hl⟩
end

/-- A list of statements that stands anywhere in others is printed somewhere in them. -/
theorem exists_infix_of_mem (o : PrintOptions) (level : Nat) (hms : ms ∈ statementLists ns) :
    ∃ level', statements o level' ms <:+: statements o level ns := by
  rcases List.mem_cons.1 hms with rfl | hms
  · exact ⟨level, List.infix_rfl⟩
  · exact statements_holds o level ns ms hms

/-- The assignment completes the declaration at the end of the list. -/
def Completes (before : List Node) (n : Node) : Prop :=
  ∃ d ∈ before.getLast?, d.initializedBy n = true

theorem completes_nil (n : Node) : ¬ Completes [] n := fun ⟨_, hd, _⟩ => nomatch hd

theorem completes_singleton : Completes [m] n ↔ m.initializedBy n = true := by
  simp [Completes]

theorem completes_append (front : List Node) (hbefore : before ≠ []) :
    Completes (front ++ before) n ↔ Completes before n := by
  rw [Completes, Completes, List.getLast?_append_of_ne_nil _ hbefore]

/-- What is initialized is no assignment, and so initializes nothing. -/
theorem not_initializedBy (h : d.initializedBy n = true) (m : Node) :
    m.initializedBy d = false := by
  obtain ⟨c, w, name, c', target, operator, value, rfl, rfl, -⟩ := exists_of_initializedBy h
  cases m <;> rfl

/-- What is printed before a node that completes nothing does not depend on what comes behind. -/
theorem statements_append (o : PrintOptions) (level : Nat) :
    ∀ {before : List Node} {n : Node}, ¬ Completes before n → ∀ after,
      ∃ front, statements o level (before ++ n :: after) = front ++ statements o level (n :: after)
  | [], n, _, after => ⟨[], rfl⟩
  | [m], n, h, after => by
    refine ⟨_, statements_single fun a ha => ?_⟩
    cases ha
    simpa [completes_singleton] using h
  | m :: a :: before, n, h, after => by
    rw [← List.singleton_append, completes_append [m] (List.cons_ne_nil _ _)] at h
    by_cases hi : m.initializedBy a = true
    · have hrest : ¬ Completes before n := by
        cases before with
        | nil => exact completes_nil n
        | cons b before =>
          rwa [← List.singleton_append, completes_append [a] (List.cons_ne_nil _ _)] at h
      obtain ⟨front, hfront⟩ := statements_append o level hrest after
      refine ⟨line o level m.comments (joined o level m a) ++ front, ?_⟩
      rw [List.append_assoc, ← hfront]
      exact statements_joined hi _
    · obtain ⟨front, hfront⟩ := statements_append o level h after
      refine ⟨line o level m.comments (statement m (expression o level m)) ++ front, ?_⟩
      rw [List.append_assoc, ← hfront]
      refine statements_single fun b hb => ?_
      cases hb
      simpa using hi

def lineText (o : PrintOptions) (level : Nat) (n : Node) : List Node → List Piece
  | a :: _ => if n.initializedBy a then joined o level n a else statement n (expression o level n)
  | [] => statement n (expression o level n)

theorem statements_line (o : PrintOptions) (level : Nat) (n : Node) (after : List Node) :
    ∃ back, statements o level (n :: after) =
      line o level n.comments (lineText o level n after) ++ back := by
  cases after with
  | nil => exact ⟨_, statements_single nofun⟩
  | cons a after =>
    by_cases hi : n.initializedBy a = true
    · rw [lineText, if_pos hi]
      exact ⟨_, statements_joined hi after⟩
    · rw [lineText, if_neg hi]
      refine ⟨_, statements_single fun b hb => ?_⟩
      cases hb
      simpa using hi

/-- The comments of a node lead its line unless it completes a declaration. -/
theorem infix_of_not_completes (o : PrintOptions) (level : Nat) (h : ¬ Completes before n)
    (after : List Node) :
    line o level n.comments (lineText o level n after) <:+:
      statements o level (before ++ n :: after) := by
  obtain ⟨front, hfront⟩ := statements_append o level h after
  obtain ⟨back, hback⟩ := statements_line o level n after
  exact ⟨front, back, by rw [hfront, hback, List.append_assoc]⟩

/-- The comments of a declaration lead the line of the assignment that completes it. -/
theorem infix_of_initializedBy (o : PrintOptions) (level : Nat) (hd : d ∈ before.getLast?)
    (h : d.initializedBy n = true) (after : List Node) :
    line o level d.comments (joined o level d n) <:+:
      statements o level (before ++ n :: after) := by
  obtain ⟨before, rfl⟩ := List.getLast?_eq_some_iff.1 hd
  have hdeclares : ¬ Completes before d := fun ⟨m, _, hm⟩ => by
    rw [not_initializedBy h m] at hm
    cases hm
  have hline := infix_of_not_completes o level hdeclares (n :: after)
  rw [lineText, if_pos h] at hline
  rwa [List.append_assoc]

/-! ## Comments in pieces -/

def noted (pieces : List Piece) : List Comment :=
  pieces.filterMap fun
    | comment c => some c
    | _ => none

@[simp] theorem noted_nil : noted [] = [] := rfl

@[simp] theorem noted_append (ps qs : List Piece) : noted (ps ++ qs) = noted ps ++ noted qs :=
  List.filterMap_append

@[simp] theorem noted_word (spelling : String) (ps : List Piece) :
    noted (word spelling :: ps) = noted ps := rfl

@[simp] theorem noted_space (ps : List Piece) : noted (space :: ps) = noted ps := rfl

@[simp] theorem noted_newline (ps : List Piece) : noted (newline :: ps) = noted ps := rfl

@[simp] theorem noted_indent (level : Nat) (ps : List Piece) :
    noted (indent level :: ps) = noted ps := rfl

@[simp] theorem noted_comment (c : Comment) (ps : List Piece) :
    noted (comment c :: ps) = c :: noted ps := rfl

theorem mem_noted {c : Comment} {ps : List Piece} : c ∈ noted ps ↔ comment c ∈ ps := by
  induction ps with
  | nil => simp
  | cons p ps ih => cases p <;> simp [ih]

@[simp] theorem noted_flatMap {α : Type} (f : α → List Piece) (xs : List α) :
    noted (xs.flatMap f) = xs.flatMap fun x => noted (f x) := by
  induction xs with
  | nil => rfl
  | cons x xs ih => simp [ih]

@[simp] theorem noted_tokensAfter (level : Nat) (last : Token) (ts : List (Nat × Token)) :
    noted (tokensAfter level last ts) = [] := by
  induction ts generalizing last with
  | nil => rfl
  | cons t ts ih =>
    have hgap : noted (gap level last t) = [] := by
      unfold gap
      split
      · rfl
      · split <;> rfl
    simp [tokensAfter, hgap, ih]

@[simp] theorem noted_tokens (level : Nat) (ts : List (Nat × Token)) :
    noted (tokens level ts) = [] := by
  cases ts <;> simp [tokens]

@[simp] theorem noted_trees (level : Nat) (ts : List TokenTree) : noted (trees level ts) = [] :=
  noted_tokens level _

@[simp] theorem noted_construct (level : Nat) (keyword : Token) (ts : List TokenTree) :
    noted (construct level keyword ts) = [] := noted_tokens level _

@[simp] theorem noted_tail (level : Nat) (t : Option (List TokenTree)) :
    noted (tail level t) = [] := by
  rcases t with _ | _ | ⟨first, rest⟩
  · rfl
  · rfl
  · rw [tail, noted_append, noted_trees]
    split <;> rfl

@[simp] theorem noted_segment (t : Token) : noted (segment t) = [] := by
  unfold segment
  split <;> rfl

@[simp] theorem noted_path (p : SymbolPath) : noted (path p) = [] := by
  unfold path
  split <;> simp

@[simp] theorem noted_pathOrUnknown (p : Option SymbolPath) : noted (pathOrUnknown p) = [] := by
  cases p with
  | none => rfl
  | some p => exact noted_path p

@[simp] theorem noted_commaList (items : List (List Piece)) :
    noted (commaList items) = items.flatMap noted := by
  induction items with
  | nil => rfl
  | cons item items ih =>
    cases items with
    | nil => simp [commaList]
    | cons second items => simp [commaList, ih]

@[simp] theorem noted_functionHead (head : FunctionHead) : noted (functionHead head) = [] := by
  unfold functionHead
  cases head.name <;> simp [List.flatMap_map]

@[simp] theorem noted_lastComma (elements : List Node) : noted (lastComma elements) = [] := by
  unfold lastComma
  split
  · split <;> rfl
  · rfl

@[simp] theorem noted_braced (level : Nat) (inner : List Piece) :
    noted (braced level inner) = noted inner := by
  unfold braced
  split
  · rename_i hempty
    rw [List.isEmpty_iff.1 hempty]
    rfl
  · simp

@[simp] theorem noted_statement (n : Node) (inner : List Piece) :
    noted (statement n inner) = noted inner := by
  cases n <;> simp [statement]

@[simp] theorem noted_initialized (w : DeclarationWord) (name : Token) (value : Node)
    (inner : List Piece) : noted (initialized w name value inner) = noted inner := by
  cases value with
  | function c head body =>
    rw [initialized]
    split <;> simp
  | _ => simp [initialized]

theorem noted_line (h : o.comments = true) (level : Nat) (c : List Comment) (inner : List Piece) :
    noted (line o level c inner) = c ++ noted inner := by
  simp [line, leading, h]

/-- The comment stands before a node of the list that completes no declaration in it. -/
def Leads (c : Comment) (ms : List Node) : Prop :=
  ∃ before n after, ms = before ++ n :: after ∧ ¬ Completes before n ∧ c ∈ n.comments

theorem leads_cons {c : Comment} (h : c ∈ n.comments) (rest : List Node) : Leads c (n :: rest) :=
  ⟨[], n, rest, rfl, completes_nil n, h⟩

theorem Leads.append {c : Comment} (h : Leads c rest) {front : List Node}
    (hfront : ∀ n ∈ rest.head?, ¬ Completes front n) : Leads c (front ++ rest) := by
  obtain ⟨before, n, after, rfl, hn, hc⟩ := h
  refine ⟨front ++ before, n, after, (List.append_assoc ..).symm, ?_, hc⟩
  cases before with
  | nil =>
    rw [List.append_nil]
    exact hfront n rfl
  | cons b before => rwa [completes_append front (List.cons_ne_nil _ _)]

/-- The comment leads a node of one of the lists. -/
def LedIn (c : Comment) (lists : List (List Node)) : Prop := ∃ ms ∈ lists, Leads c ms

theorem LedIn.mono {c : Comment} {ls ls' : List (List Node)} (h : LedIn c ls) (hsub : ls ⊆ ls') :
    LedIn c ls' :=
  h.imp fun _ hms => ⟨hsub hms.1, hms.2⟩

theorem LedIn.left {c : Comment} {ls : List (List Node)} (h : LedIn c ls) (ls' : List (List Node)) :
    LedIn c (ls ++ ls') := h.mono (List.subset_append_left _ _)

theorem LedIn.right {c : Comment} {ls : List (List Node)} (h : LedIn c ls)
    (ls' : List (List Node)) : LedIn c (ls' ++ ls) := h.mono (List.subset_append_right _ _)

theorem LedIn.behind {c : Comment} (h : LedIn c (statementLists rest)) (front : List Node)
    (hfront : ∀ n ∈ rest.head?, ¬ Completes front n) :
    LedIn c (statementLists (front ++ rest)) := by
  obtain ⟨ms, hms, hc⟩ := h
  rw [statementLists, bodies_append]
  rcases List.mem_cons.1 hms with rfl | hms
  · exact ⟨_, List.mem_cons_self, hc.append hfront⟩
  · exact ⟨ms, List.mem_cons_of_mem _ (List.mem_append_right _ hms), hc⟩

variable {c : Comment}

mutual
theorem leads_of_expression (ho : o.comments = true) (level : Nat) (n : Node)
    (h : c ∈ noted (expression o level n)) : LedIn c (bodies [n]) := by
  cases n with
  | declaration | returnNothing | reference | object | primitive | expression | skipped =>
    simp [expression] at h
  | block _ body =>
    rw [bodies_block]
    exact leads_of_statements ho (level + 1) body (by simpa [expression] using h)
  | function _ head body =>
    rw [bodies_function]
    exact leads_of_statements ho (level + 1) body (by simpa [expression] using h)
  | assignment _ target operator value =>
    rw [bodies_assignment]
    exact leads_of_expression ho level value (by simpa [expression, assigned] using h)
  | returnValue _ value =>
    rw [bodies_returnValue]
    exact leads_of_expression ho level value (by simpa [expression] using h)
  | instantiation _ value =>
    rw [bodies_instantiation]
    exact leads_of_expression ho level value (by simpa [expression] using h)
  | call _ callee arguments =>
    rw [bodies_call]
    exact leads_of_expressions ho level arguments (by simpa [expression] using h)
  | array _ elements =>
    rw [bodies_array]
    exact leads_of_expressions ho level elements (by simpa [expression] using h)
  | invocation _ p arguments chain t =>
    have hparts : c ∈ (expressions o level arguments).flatMap noted ∨
        c ∈ (expressions o level chain).flatMap noted := by
      simpa [expression] using h
    rw [bodies_invocation]
    rcases hparts with h | h
    · exact (leads_of_expressions ho level arguments h).left _
    · exact (leads_of_expressions ho level chain h).right _
  | immediate _ head body arguments =>
    have hparts : c ∈ noted (statements o (level + 1) body) ∨
        c ∈ (expressions o level arguments).flatMap noted := by
      simpa [expression] using h
    rw [bodies_immediate]
    rcases hparts with h | h
    · exact (leads_of_statements ho (level + 1) body h).left _
    · exact (leads_of_expressions ho level arguments h).right _

theorem leads_of_statements (ho : o.comments = true) (level : Nat) (ns : List Node)
    (h : c ∈ noted (statements o level ns)) : LedIn c (statementLists ns) := by
  cases ns with
  | nil => cases h
  | cons n rest =>
    by_cases hsingle : ∀ a ∈ rest.head?, n.initializedBy a = false
    · rw [statements_single hsingle, noted_append, noted_line ho, noted_statement,
        List.append_assoc, List.mem_append, List.mem_append] at h
      rcases h with h | h | h
      · exact ⟨n :: rest, List.mem_cons_self, leads_cons h rest⟩
      · refine (leads_of_expression ho level n h).mono fun ms hms => ?_
        rw [statementLists, bodies_cons]
        exact List.mem_cons_of_mem _ (List.mem_append_left _ hms)
      · refine (leads_of_statements ho level rest h).behind [n] fun a ha => ?_
        rw [completes_singleton, hsingle a ha]
        exact Bool.false_ne_true
    · cases rest with
      | nil => exact absurd nofun hsingle
      | cons a rest =>
        have hjoin : n.initializedBy a = true := by simpa using hsingle
        cases n with
        | declaration d w name =>
          cases a with
          | assignment d' target operator value =>
            rw [statements_joined hjoin, noted_append, noted_line ho, List.append_assoc,
              List.mem_append, List.mem_append] at h
            rcases h with h | h | h
            · exact ⟨_, List.mem_cons_self, leads_cons h _⟩
            · have hvalue : c ∈ noted (expression o level value) := by simpa [joined] using h
              refine (leads_of_expression ho level value hvalue).mono fun ms hms => ?_
              rw [← bodies_assignment d' target operator value] at hms
              rw [statementLists, bodies_cons, bodies_cons (.assignment ..)]
              exact List.mem_cons_of_mem _ (List.mem_append_right _ (List.mem_append_left _ hms))
            · refine (leads_of_statements ho level rest h).behind
                [.declaration d w name, .assignment d' target operator value] fun b _ => ?_
              rw [← List.singleton_append, completes_append _ (List.cons_ne_nil _ _),
                completes_singleton]
              exact Bool.false_ne_true
          | _ => cases hjoin
        | _ => cases hjoin

theorem leads_of_expressions (ho : o.comments = true) (level : Nat) (ns : List Node)
    (h : c ∈ (expressions o level ns).flatMap noted) : LedIn c (bodies ns) := by
  cases ns with
  | nil => cases h
  | cons n rest =>
    rw [expressions, List.flatMap_cons, List.mem_append] at h
    rw [bodies_cons]
    rcases h with h | h
    · exact (leads_of_expression ho level n h).left _
    · exact (leads_of_expressions ho level rest h).right _
end

/-- A comment is printed exactly if some node has it that completes no declaration. -/
theorem mem_statements_iff (ho : o.comments = true) (ns : List Node) :
    comment c ∈ statements o level ns ↔ LedIn c (statementLists ns) := by
  rw [← mem_noted]
  refine ⟨leads_of_statements ho level ns, ?_⟩
  rintro ⟨ms, hms, before, n, after, rfl, hn, hc⟩
  obtain ⟨level', hlist⟩ := exists_infix_of_mem o level hms
  have hline := (infix_of_not_completes o level' hn after).trans hlist
  refine (hline.filterMap _).subset ?_
  show c ∈ noted (line o level' n.comments _)
  rw [noted_line ho]
  exact List.mem_append_left _ hc

/-- Each statement in a script is printed on a line of its own below the comments before it,
unless it gives the name that is declared just before it its value: then the line is that of
the declaration, and it stands below the comments of the declaration.  No other comments
are printed. -/
theorem comments_printed_exactly (s : Script) (indentation : String) :
    let o : PrintOptions := { comments := true, indent := indentation }
    (∀ ns ∈ statementLists s.body, ∀ before n after, ns = before ++ n :: after →
      (¬ Completes before n → ∃ level,
        n.comments.flatMap (fun c => [indent level, comment c, newline]) ++
          indent level :: lineText o level n after ++ [newline] <:+: statements o 0 s.body) ∧
      ∀ d ∈ before.getLast?, d.initializedBy n = true → ∃ level,
        d.comments.flatMap (fun c => [indent level, comment c, newline]) ++
          indent level :: joined o level d n ++ [newline] <:+: statements o 0 s.body) ∧
    ∀ c, comment c ∈ statements o 0 s.body ↔
      ∃ ns ∈ statementLists s.body, ∃ before n after, ns = before ++ n :: after ∧
        ¬ Completes before n ∧ c ∈ n.comments := by
  intro o
  refine ⟨?_, fun c => mem_statements_iff rfl s.body⟩
  rintro ns hns before n after rfl
  obtain ⟨level, hlist⟩ := exists_infix_of_mem o 0 hns
  refine ⟨fun hn => ⟨level, ?_⟩, fun d hd hi => ⟨level, ?_⟩⟩
  · exact (infix_of_not_completes o level hn after).trans hlist
  · exact (infix_of_initializedBy o level hd hi after).trans hlist

/-- The comment before an assignment that completes a declaration without comments is lost. -/
theorem comments_printed_exactly_declared :
    ∃ s, Script.ofText "var x;\n/* c */ x = 1;" = .ok s ∧
      s.body.map (fun n => (n.kindName, n.comments.map (·.text))) =
        [("VarDecl", []), ("Assign", [" c "])] ∧
      s.print { comments := true, indent := "" } = "var x = 1;\n" ∧
      ∀ n ∈ s.body, ∀ c ∈ n.comments, ¬ ∃ ns ∈ statementLists s.body, ∃ before n after,
        ns = before ++ n :: after ∧ ¬ Completes before n ∧ c ∈ n.comments := by
  have hfull : (Script.ofText "var x;\n/* c */ x = 1;").toOption.any (fun s =>
      s.body.map (fun n => (n.kindName, n.comments.map (·.text))) ==
          [("VarDecl", []), ("Assign", [" c "])] &&
        s.print { comments := true, indent := "" } == "var x = 1;\n" &&
        s.body.all fun n => n.comments.all fun c =>
          !(statements { comments := true, indent := "" } 0 s.body).contains (comment c)) = true := by
    decide +kernel
  obtain ⟨s, hs, hparts⟩ := Script.exists_of_any hfull
  simp only [Bool.and_eq_true] at hparts
  obtain ⟨⟨hnodes, hprint⟩, hlost⟩ := hparts
  refine ⟨s, hs, eq_of_beq hnodes, eq_of_beq hprint, fun n hn c hc hled => ?_⟩
  have hprinted := ((comments_printed_exactly s "").2 c).2 hled
  have hnone := List.all_eq_true.1 (List.all_eq_true.1 hlost n hn) c hc
  simp only [Bool.not_eq_true', List.contains_eq_mem, decide_eq_false_iff_not] at hnone
  exact hnone hprinted

end Printer

end ScriptOutline
