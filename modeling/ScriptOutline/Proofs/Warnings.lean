/-
What is not understood is reported, once.

`Accounts ws ns` compares warnings with nodes in pre-order: every construct that is kept is
warned of, in order; so is every path that has to be computed; and no tail is kept
unwarned.  It holds along the derivation of a script.
-/
import ScriptOutline.Proofs.TracedScript

namespace ScriptOutline

namespace Node

mutual
def preorder : Node → List Node
  | block comments body => block comments body :: preorderAll body
  | declaration comments word name => [declaration comments word name]
  | assignment comments target operator value =>
    assignment comments target operator value :: preorder value
  | function comments head body => function comments head body :: preorderAll body
  | returnNothing comments => [returnNothing comments]
  | returnValue comments value => returnValue comments value :: preorder value
  | call comments callee arguments => call comments callee arguments :: preorderAll arguments
  | reference comments path tail => [reference comments path tail]
  | invocation comments path arguments chain tail =>
    invocation comments path arguments chain tail :: (preorderAll arguments ++ preorderAll chain)
  | instantiation comments value => instantiation comments value :: preorder value
  | array comments elements => array comments elements :: preorderAll elements
  | object comments trees => [object comments trees]
  | primitive comments kind token => [primitive comments kind token]
  | expression comments trees => [expression comments trees]
  | immediate comments head body arguments =>
    immediate comments head body arguments :: (preorderAll body ++ preorderAll arguments)
  | skipped comments keyword trees => [skipped comments keyword trees]

def preorderAll : List Node → List Node
  | [] => []
  | n :: ns => preorder n ++ preorderAll ns
end

def isUnresolved : Node → Bool
  | reference _ path _ | invocation _ path _ _ _ => path.isNone
  | _ => false

def hasTail : Node → Bool
  | reference _ _ tail | invocation _ _ _ _ tail => tail.isSome
  | _ => false

/-- The warning that a construct which is kept as it is calls for. -/
def skipWarning? : Node → Option Warning
  | skipped _ keyword _ =>
    some { cause := .constructSkipped keyword.value, location := keyword.location }
  | _ => none

theorem preorderAll_append (ms ns : List Node) :
    preorderAll (ms ++ ns) = preorderAll ms ++ preorderAll ns := by
  induction ms with
  | nil => rfl
  | cons m ms ih => rw [List.cons_append, preorderAll, preorderAll, ih, List.append_assoc]

@[simp] theorem preorderAll_singleton (n : Node) : preorderAll [n] = preorder n :=
  List.append_nil _

end Node

def Warning.reports (message : Message) (w : Warning) : Bool := w.cause.message == message

open Node

/-- The warnings are those that the nodes call for, and perhaps some of tails that were
dropped. -/
structure Accounts (ws : List Warning) (ns : List Node) : Prop where
  skipped : ws.filter (·.reports .constructSkipped) = (preorderAll ns).filterMap skipWarning?
  computed : ws.countP (·.reports .computedAccess) = (preorderAll ns).countP isUnresolved
  tails : (preorderAll ns).countP hasTail ≤ ws.countP (·.reports .incompleteExpression)

/-- The warning of a path at a key that has to be computed. -/
def rootWarnings (computed : Bool) (location : Location) : List Warning :=
  if computed then [{ cause := .computedAccess, location }] else []

def tailWarnings (tail : Bool) (location : Location) : List Warning :=
  if tail then [{ cause := .incompleteExpression, location }] else []

namespace Accounts

variable {us vs ws : List Warning} {ms ns : List Node} {node : Node}

theorem nil : Accounts [] [] := ⟨rfl, rfl, Nat.le_refl 0⟩

theorem append (hm : Accounts us ms) (hn : Accounts vs ns) : Accounts (us ++ vs) (ms ++ ns) := by
  constructor
  · rw [preorderAll_append, List.filter_append, List.filterMap_append, hm.skipped, hn.skipped]
  · rw [preorderAll_append, List.countP_append, List.countP_append, hm.computed, hn.computed]
  · rw [preorderAll_append, List.countP_append, List.countP_append]
    exact Nat.add_le_add hm.tails hn.tails

/-- What is dropped may be warned of. -/
theorem dropping (h : Accounts ws ns) (tail : Bool) (location : Location) :
    Accounts (ws ++ tailWarnings tail location) ns := by
  constructor
  · rw [List.filter_append, h.skipped]
    cases tail <;> exact List.append_nil _
  · rw [List.countP_append, h.computed]
    cases tail <;> rfl
  · rw [List.countP_append]
    exact Nat.le_trans h.tails (Nat.le_add_right _ _)

/-- What is said of a node stands around what is said of the nodes in it: its path is read
before them, and its tail behind them. -/
theorem around (hnode : preorder node = node :: preorderAll ns) (h : Accounts ws ns)
    (hskip : node.skipWarning? = none) (start stop : Location) :
    Accounts (rootWarnings node.isUnresolved start ++ ws ++ tailWarnings node.hasTail stop)
      [node] := by
  rw [← preorderAll_singleton] at hnode
  constructor
  · have hroot : (rootWarnings node.isUnresolved start).filter (·.reports .constructSkipped) = [] := by
      cases node.isUnresolved <;> rfl
    have htail : (tailWarnings node.hasTail stop).filter (·.reports .constructSkipped) = [] := by
      cases node.hasTail <;> rfl
    rw [hnode, List.filterMap_cons_none hskip, List.filter_append, List.filter_append, hroot, htail,
      h.skipped, List.append_nil, List.nil_append]
  · have hroot : (rootWarnings node.isUnresolved start).countP (·.reports .computedAccess) =
        if node.isUnresolved then 1 else 0 := by
      cases node.isUnresolved <;> rfl
    have htail : (tailWarnings node.hasTail stop).countP (·.reports .computedAccess) = 0 := by
      cases node.hasTail <;> rfl
    rw [hnode, List.countP_cons, List.countP_append, List.countP_append, hroot, htail, h.computed]
    omega
  · have htail : (tailWarnings node.hasTail stop).countP (·.reports .incompleteExpression) =
        if node.hasTail then 1 else 0 := by
      cases node.hasTail <;> rfl
    have hrest := h.tails
    rw [hnode, List.countP_cons, List.countP_append, List.countP_append, htail]
    omega

/-- A node that calls for nothing itself. -/
theorem plain (hnode : preorder node = node :: preorderAll ns) (h : Accounts ws ns)
    (hskip : node.skipWarning? = none) (hpath : node.isUnresolved = false)
    (htail : node.hasTail = false) : Accounts ws [node] := by
  have haround := h.around hnode hskip {} {}
  rw [hpath, htail] at haround
  simpa [rootWarnings, tailWarnings] using haround

theorem withComments (comments : List Comment) (h : Accounts ws [node]) :
    Accounts ws [node.withComments comments] := by
  constructor
  · rw [h.skipped]
    cases node <;> rfl
  · rw [h.computed]
    cases node <;> rfl
  · refine Nat.le_trans (Nat.le_of_eq ?_) h.tails
    cases node <;> rfl

end Accounts

variable {m : Nat → Token} {n : Nat} {x y : Stage} {ns : List Node}

theorem PathRead.warnings {path : Option SymbolPath} (h : PathRead m x path y) :
    ∃ location, y.warnings = x.warnings ++ rootWarnings path.isNone location := by
  cases h with
  | known _ => exact ⟨{}, (List.append_nil _).symm⟩
  | @computed j k _ _ _ => exact ⟨(m j).location, rfl⟩

theorem TailRead.warnings {tail : Option (List TokenTree)} (h : TailRead m x tail y) :
    ∃ location, y.warnings = x.warnings ++ tailWarnings tail.isSome location := by
  cases h with
  | none => exact ⟨{}, (List.append_nil _).symm⟩
  | some _ _ _ => exact ⟨(m x.index).location, rfl⟩

theorem HeadRead.warnings {head : FunctionHead} (h : HeadRead x head y) :
    y.warnings = x.warnings := by
  cases h with
  | named _ => rfl
  | anonymous _ => rfl

/-- Reading nodes raises the warnings that they call for. -/
theorem Reads.accounts (h : Reads m n x ns y) :
    ∃ ws, y.warnings = x.warnings ++ ws ∧ Accounts ws ns := by
  induction h with
  | nil => exact ⟨[], (List.append_nil _).symm, .nil⟩
  | append _ _ ih ih' =>
    obtain ⟨us, hus, hfirst⟩ := ih
    obtain ⟨vs, hvs, hsecond⟩ := ih'
    refine ⟨us ++ vs, ?_, hfirst.append hsecond⟩
    rw [hvs, hus, List.append_assoc]
  | passing _ _ _ ih => exact ih
  | dropping _ dropped ih =>
    obtain ⟨us, hus, hnodes⟩ := ih
    obtain ⟨location, htail⟩ := dropped.warnings
    exact ⟨_, by rw [htail, hus, List.append_assoc], hnodes.dropping _ location⟩
  | deeper _ _ ih => exact ih
  | recommented comments _ ih =>
    obtain ⟨ws, hws, hnode⟩ := ih
    exact ⟨ws, hws, hnode.withComments comments⟩
  | declaration | returnNothing | primitive | object | expression =>
    exact ⟨[], (List.append_nil _).symm, .plain rfl .nil rfl rfl rfl⟩
  | skipped _ _ => exact ⟨_, rfl, rfl, rfl, Nat.le_refl 0⟩
  | returnValue _ ih | assignment _ _ _ ih | instantiation _ ih =>
    obtain ⟨ws, hws, hvalue⟩ := ih
    refine ⟨ws, hws, .plain ?_ hvalue rfl rfl rfl⟩
    rw [preorderAll_singleton]
    rfl
  | block _ ih | array _ ih =>
    obtain ⟨ws, hws, hnodes⟩ := ih
    exact ⟨ws, hws, .plain rfl hnodes rfl rfl rfl⟩
  | function named _ ih =>
    obtain ⟨ws, hws, hbody⟩ := ih
    rw [named.warnings] at hws
    exact ⟨ws, hws, .plain rfl hbody rfl rfl rfl⟩
  | immediate named _ _ ih ih' =>
    obtain ⟨us, hus, hbody⟩ := ih
    obtain ⟨vs, hvs, harguments⟩ := ih'
    rw [named.warnings] at hus
    refine ⟨us ++ vs, by rw [hvs, hus, List.append_assoc], ?_⟩
    refine .plain ?_ (hbody.append harguments) rfl rfl rfl
    rw [preorderAll_append]
    rfl
  | reference root rest =>
    obtain ⟨start, hpath⟩ := root.warnings
    obtain ⟨stop, htail⟩ := rest.warnings
    refine ⟨_, ?_, Accounts.nil.around rfl rfl start stop⟩
    rw [htail, hpath, List.append_nil, List.append_assoc]
    rfl
  | call root _ ih =>
    obtain ⟨ws, hws, harguments⟩ := ih
    obtain ⟨start, hpath⟩ := root.warnings
    rw [hpath] at hws
    refine ⟨ws, ?_, .plain rfl harguments rfl rfl rfl⟩
    rw [hws]
    exact congrArg (· ++ ws) (List.append_nil _)
  | invocation root _ _ rest ih ih' =>
    obtain ⟨us, hus, harguments⟩ := ih
    obtain ⟨vs, hvs, hchain⟩ := ih'
    obtain ⟨start, hpath⟩ := root.warnings
    obtain ⟨stop, htail⟩ := rest.warnings
    refine ⟨_, ?_, (harguments.append hchain).around ?_ rfl start stop⟩
    · rw [htail, hvs, hus, hpath]
      simp only [List.append_assoc]
      rfl
    · rw [preorderAll_append]
      rfl

/-! ## Diagnostics -/

/-- What is reported of a construct that is kept as it is. -/
def Node.skipReport? : Node → Option Diagnostic
  | skipped _ keyword _ => some (.located keyword.location .constructSkipped [keyword.value])
  | _ => none

theorem Node.map_skipWarning? (node : Node) :
    node.skipWarning?.map (·.toDiagnostic) = node.skipReport? := by
  cases node <;> rfl

theorem Message.mem_all (message : Message) : message ∈ all := by
  cases message <;> decide

/-- No two messages have the same number. -/
theorem Message.code_beq (a b : Message) : (a.code == b.code) = (a == b) := by
  have hcodes : ∀ a ∈ all, ∀ b ∈ all, (a.code == b.code) = (a == b) := by decide
  exact hcodes a a.mem_all b b.mem_all

theorem WarningCause.message_mem (cause : WarningCause) :
    cause.message ∈ [Message.computedAccess, .constructSkipped, .incompleteExpression] := by
  cases cause <;> simp [message]

theorem Script.filter_diagnostics (s : Script) (message : Message) :
    s.diagnostics.entries.filter (·.message.code == message.code) =
      (s.warnings.filter (·.reports message)).map (·.toDiagnostic) := by
  rw [diagnostics, List.filter_map]
  exact congrArg _ (List.filter_congr fun w _ => Message.code_beq w.cause.message message)

theorem Script.countP_diagnostics (s : Script) (message : Message) :
    s.diagnostics.entries.countP (·.message.code == message.code) =
      s.warnings.countP (·.reports message) := by
  rw [List.countP_eq_length_filter, s.filter_diagnostics, List.length_map,
    List.countP_eq_length_filter]

/-- Whatever a script's reading has lost is among its diagnostics: each construct that is kept
as it is, in order and with the place and the word of its keyword; each path that has to be
computed; each tail.  There are no other diagnostics. -/
theorem Script.degradations_reported {feed : TokenFeed} {s : Script} (h : ofFeed feed = .ok s) :
    s.diagnostics.entries.filter (·.message.code == "DS2002") =
      (preorderAll s.body).filterMap skipReport? ∧
    s.diagnostics.entries.countP (·.message.code == "DS2001") =
      (preorderAll s.body).countP isUnresolved ∧
    (preorderAll s.body).countP hasTail ≤
      s.diagnostics.entries.countP (·.message.code == "DS2003") ∧
    ∀ d ∈ s.diagnostics.entries, d.message.code ∈ ["DS2001", "DS2002", "DS2003"] := by
  obtain ⟨x, t, hreads, hwarnings, -⟩ := derivation h
  obtain ⟨ws, hws, haccounts⟩ := hreads.accounts
  obtain rfl : ws = s.warnings := by rw [← hwarnings, hws]; rfl
  refine ⟨?_, ?_, ?_, ?_⟩
  · have hskips := s.filter_diagnostics .constructSkipped
    rw [haccounts.skipped, List.map_filterMap] at hskips
    simp only [map_skipWarning?] at hskips
    exact hskips
  · exact (s.countP_diagnostics .computedAccess).trans haccounts.computed
  · exact Nat.le_trans haccounts.tails (Nat.le_of_eq (s.countP_diagnostics _).symm)
  · intro d hd
    obtain ⟨w, -, rfl⟩ := List.mem_map.1 hd
    have hcodes : ∀ message ∈ [Message.computedAccess, .constructSkipped, .incompleteExpression],
        message.code ∈ ["DS2001", "DS2002", "DS2003"] := by decide
    exact hcodes _ w.cause.message_mem

/-- A construct in a function in an array, a key to compute, and a tail that is kept. -/
theorem Script.degradations_reported_break :
    ∃ s, ofFeed (.ofText "[function () \x7b break \x7d]; a[b].c + d") = .ok s ∧
      s.diagnostics.entries.map (·.message.code) = ["DS2002", "DS2001", "DS2003"] ∧
      s.diagnostics.entries.filter (·.message.code == "DS2002") =
        (preorderAll s.body).filterMap skipReport? ∧
      s.diagnostics.entries.countP (·.message.code == "DS2001") =
        (preorderAll s.body).countP isUnresolved ∧
      (preorderAll s.body).countP hasTail ≤
        s.diagnostics.entries.countP (·.message.code == "DS2003") ∧
      ∀ d ∈ s.diagnostics.entries, d.message.code ∈ ["DS2001", "DS2002", "DS2003"] := by
  have hfull : (ofFeed (.ofText "[function () \x7b break \x7d]; a[b].c + d")).toOption.any (fun s =>
      s.diagnostics.entries.map (·.message.code) == ["DS2002", "DS2001", "DS2003"]) = true := by
    decide +kernel
  obtain ⟨s, hs, hcodes⟩ := exists_of_any hfull
  exact ⟨s, hs, eq_of_beq hcodes, degradations_reported hs⟩

end ScriptOutline
