/-
What is found at paths is what is there.

A path that names a directory is walked.  Names are excluded in two ways: on the path by its
segments, and below it by what the walk leaves out, which is never the directory it starts from.
Together they make one rule for each path, `Discovery.Yields`: nothing, what stands there if its
path is that of a script, or the scripts below that are reached over names none of which is
excluded, in the order of these names.

Nothing is used of the walk but that it goes depth first and in the order of the names
(`Walk.DepthFirst`), as `Walk.byName` does.  Nothing is used of the view but that the entries of a
directory have names, and different ones (`FileView.Proper`), in whatever order they are listed;
what paths lead to, absolute ones or not, is up to the view.
-/
import ScriptOutline.Files.Discovery
import ScriptOutline.Proofs.Canonical
import Mathlib.Data.List.Forall2
import Mathlib.Data.List.Nodup

namespace ScriptOutline

namespace Path

/-- What an entry of a directory can be called. -/
structure IsName (name : String) : Prop where
  ne_empty : name ≠ ""
  ne_here : name ≠ "."
  ne_up : name ≠ ".."
  slash_notMem : '/' ∉ name.toList

def NamesScript (name : String) : Prop := extension? name.toList = some ['j', 's']

theorem toList_asDirectory (path : String) : ∃ cs, (asDirectory path).toList = cs ++ ['/'] := by
  simp only [asDirectory]
  split
  · rename_i h
    exact ⟨path.toList.dropLast, (List.dropLast_append_getLast? '/' (beq_iff_eq.1 h)).symm⟩
  · exact ⟨path.toList, by rw [String.toList_append]; rfl⟩

variable {name : String}

theorem IsName.segments_child (h : IsName name) (path : String) :
    ∃ segs, segments (child path name) = segs ++ [name] := by
  obtain ⟨cs, hcs⟩ := toList_asDirectory path
  refine ⟨(split cs).map String.ofList, ?_⟩
  rw [segments, child, String.toList_append, hcs, List.append_assoc, List.singleton_append,
    split_append, split_of_notMem h.slash_notMem, List.map_append, List.map_singleton,
    String.ofList_toList]

/-- The path of an entry ends with the name of the entry. -/
theorem IsName.fileName?_child (h : IsName name) (path : String) :
    fileName? (child path name) = some name := by
  obtain ⟨segs, hsegs⟩ := h.segments_child path
  have hfilter : [name].filter (fun s => s != "" && s != ".") = [name] := by
    simp [h.ne_empty, h.ne_here]
  rw [fileName?, hsegs, List.filter_append, hfilter, List.getLast?_concat]
  simp [h.ne_up]

theorem IsName.isScript_child (h : IsName name) (path : String) :
    isScript (child path name) = true ↔ NamesScript name := by
  rw [isScript, h.fileName?_child, Option.bind_some, beq_iff_eq, NamesScript]

/-- An entry of an entry is reached over both names. -/
theorem IsName.child_child (h : IsName name) (path rest : String) :
    child (child path name) rest = child path (name ++ "/" ++ rest) := by
  have hlast : (child path name).toList.getLast? ≠ some '/' := by
    intro hlast
    rw [child, String.toList_append, List.getLast?_append_of_ne_nil] at hlast
    · exact h.slash_notMem (List.mem_of_getLast? hlast)
    · simpa using h.ne_empty
  rw [child, asDirectory, if_neg (by simpa using hlast), child, child]
  simp only [String.append_assoc]

end Path

namespace FileTree

/-- Every directory has its entries under names, and no two under the same one. -/
inductive Proper : FileTree → Prop where
  | file (text : Option String) : Proper (.file text)
  | special (text : Option String) : Proper (.special text)
  | directory {entries : List (String × FileTree)} (distinct : (entries.map Prod.fst).Nodup)
      (named : ∀ e ∈ entries, Path.IsName e.1) (proper : ∀ e ∈ entries, Proper e.2) :
      Proper (.directory entries)

/-- The names lead from the one tree down to the other. -/
inductive Leads : FileTree → List String → FileTree → Prop where
  | here (t : FileTree) : Leads t [] t
  | entry {entries : List (String × FileTree)} {name : String} {t u : FileTree}
      {names : List String} (h : (name, t) ∈ entries) (below : Leads t names u) :
      Leads (.directory entries) (name :: names) u

theorem leads_nil_iff {t u : FileTree} : t.Leads [] u ↔ t = u := by
  constructor
  · rintro ⟨⟩
    rfl
  · rintro rfl
    exact .here t

theorem leads_directory_iff {entries : List (String × FileTree)} {name : String}
    {names : List String} {u : FileTree} :
    (directory entries).Leads (name :: names) u ↔
      ∃ t, (name, t) ∈ entries ∧ t.Leads names u := by
  constructor
  · rintro ⟨⟩
    exact ⟨_, ‹_›, ‹_›⟩
  · rintro ⟨t, h, below⟩
    exact .entry h below

theorem not_leads_of_leaf {t u : FileTree} {name : String} {names : List String}
    (ht : t.isDirectory = false) : ¬ t.Leads (name :: names) u := by
  rintro ⟨⟩
  cases ht

theorem Proper.follow {above : List FileTree} {t u : FileTree} {segments : List String}
    (ht : t.Proper) (habove : ∀ a ∈ above, a.Proper) (h : t.follow above segments = .ok u) :
    u.Proper := by
  fun_induction FileTree.follow above t segments with
  | case1 above t =>
    obtain rfl : t = u := by simpa using h
    exact ht
  | case2 => cases h
  | case3 => cases h
  | case4 above segment rest entries _ ih => exact ih ht habove h
  | case5 segment rest entries _ _ ih => exact ih ht habove h
  | case6 segment rest entries _ _ parent above ih =>
    rw [List.forall_mem_cons] at habove
    exact ih habove.1 habove.2 h
  | case7 => cases h
  | case8 => cases h
  | case9 above segment rest entries _ _ _ entry hlookup ih =>
    obtain ⟨_, _, rfl, _⟩ := List.lookup_eq_some_iff.1 hlookup
    refine ih ?_ (List.forall_mem_cons.2 ⟨ht, habove⟩) h
    cases ht with
    | directory _ _ proper => exact proper (segment, entry) (by simp)

/-- Every directory has its entries in the order of their names. -/
inductive InOrder : FileTree → Prop where
  | file (text : Option String) : InOrder (.file text)
  | special (text : Option String) : InOrder (.special text)
  | directory {entries : List (String × FileTree)} (ordered : entries.Pairwise fun a b => a.1 < b.1)
      (named : ∀ e ∈ entries, Path.IsName e.1) (inOrder : ∀ e ∈ entries, InOrder e.2) :
      InOrder (.directory entries)

theorem InOrder.proper {t : FileTree} (h : t.InOrder) : t.Proper := by
  induction h with
  | file text => exact .file text
  | special text => exact .special text
  | directory ordered named inOrder ih =>
    exact .directory (List.pairwise_map.2 (ordered.imp String.ne_of_lt)) named ih

theorem inOrder_empty : empty.InOrder := .directory .nil (by simp) (by simp)

theorem eq_or_mem_of_mem_putEntry {name : String} {t : FileTree}
    {entries : List (String × FileTree)} {e : String × FileTree}
    (h : e ∈ putEntry name t entries) : e = (name, t) ∨ e ∈ entries := by
  induction entries with
  | nil => simpa [putEntry] using h
  | cons first entries ih =>
    simp only [putEntry] at h
    split at h
    · simpa using h
    split at h
    · rcases List.mem_cons.1 h with h | h
      · exact .inl h
      · exact .inr (List.mem_cons_of_mem _ h)
    · rcases List.mem_cons.1 h with rfl | h
      · exact .inr List.mem_cons_self
      · exact (ih h).imp_right (List.mem_cons_of_mem _)

theorem pairwise_putEntry (name : String) (t : FileTree) {entries : List (String × FileTree)}
    (h : entries.Pairwise fun a b => a.1 < b.1) :
    (putEntry name t entries).Pairwise fun a b => a.1 < b.1 := by
  induction entries with
  | nil => exact List.pairwise_singleton _ _
  | cons first entries ih =>
    obtain ⟨hfirst, hrest⟩ := List.pairwise_cons.1 h
    simp only [putEntry]
    split
    · rename_i hlt
      refine List.pairwise_cons.2 ⟨List.forall_mem_cons.2 ⟨hlt, fun e he => ?_⟩, h⟩
      exact String.lt_trans hlt (hfirst e he)
    split
    · rename_i heq
      rw [beq_iff_eq] at heq
      exact List.pairwise_cons.2 ⟨fun e he => heq ▸ hfirst e he, hrest⟩
    · rename_i hlt hne
      refine List.pairwise_cons.2 ⟨fun e he => ?_, ih hrest⟩
      rcases eq_or_mem_of_mem_putEntry he with rfl | he
      · refine String.not_le.1 fun hle => hne (beq_iff_eq.2 ?_)
        exact String.le_antisymm hle (String.not_lt.1 hlt)
      · exact hfirst e he

theorem InOrder.putEntry {name : String} {t : FileTree} {entries : List (String × FileTree)}
    (h : InOrder (FileTree.directory entries)) (hname : Path.IsName name) (ht : t.InOrder) :
    InOrder (FileTree.directory (FileTree.putEntry name t entries)) := by
  cases h with
  | directory ordered named inOrder =>
    refine .directory (pairwise_putEntry name t ordered) ?_ ?_
    · intro e he
      rcases eq_or_mem_of_mem_putEntry he with rfl | he
      · exact hname
      · exact named e he
    · intro e he
      rcases eq_or_mem_of_mem_putEntry he with rfl | he
      · exact ht
      · exact inOrder e he

theorem InOrder.entries {t : FileTree} (h : t.InOrder) :
    InOrder (FileTree.directory t.entries) := by
  cases h with
  | file => exact inOrder_empty
  | special => exact inOrder_empty
  | directory ordered named inOrder => exact .directory ordered named inOrder

theorem InOrder.put {item t : FileTree} {segments : List String} (hitem : item.InOrder)
    (hsegments : ∀ s ∈ segments, Path.IsName s) (ht : t.InOrder) :
    (put item segments t).InOrder := by
  fun_induction FileTree.put item segments t with
  | case1 => exact hitem
  | case2 segment rest t entry ih =>
    rw [List.forall_mem_cons] at hsegments
    refine ht.entries.putEntry hsegments.1 (ih hsegments.2 ?_)
    cases hlookup : t.entries.lookup segment with
    | none => exact inOrder_empty
    | some below =>
      obtain ⟨_, _, hentries, _⟩ := List.lookup_eq_some_iff.1 hlookup
      have hbelow := ht.entries
      rw [hentries] at hbelow
      cases hbelow with
      | directory _ _ inOrder => exact inOrder (segment, below) (by simp)

theorem isName_of_mem_names {path name : String} (h : name ∈ Path.names path) :
    Path.IsName name := by
  simp only [Path.names, Path.segments, List.mem_filter, List.mem_map, Bool.and_eq_true,
    bne_iff_ne] at h
  obtain ⟨⟨cs, hcs, rfl⟩, ⟨hempty, hhere⟩, hup⟩ := h
  refine ⟨hempty, hhere, hup, ?_⟩
  rw [String.toList_ofList]
  exact Path.slash_notMem_split _ cs hcs

/-- Whatever is added, the tree stays in order. -/
theorem InOrder.addFile {t : FileTree} (h : t.InOrder) (path : String) (text : Option String) :
    (t.addFile path text).InOrder :=
  .put (.file text) (fun _ => isName_of_mem_names) h

theorem InOrder.addDirectory {t : FileTree} (h : t.InOrder) (path : String) :
    (t.addDirectory path).InOrder := by
  simp only [FileTree.addDirectory]
  split
  · exact h
  · exact .put inOrder_empty (fun _ => isName_of_mem_names) h

end FileTree

/-- All that can be seen is proper. -/
def FileView.Proper (view : FileView) : Prop := ∀ ⦃path t⦄, view path = .ok t → t.Proper

theorem FileSystem.proper_look {s : FileSystem} (h : s.root.Proper) : s.look.Proper := by
  intro path t ht
  simp only [FileSystem.look] at ht
  split at ht
  · cases ht
  split at ht
  · cases ht
  split at ht
  · cases ht
  · exact h.follow (by simp) ht

/-- A script below a directory, by the names that lead there. -/
structure ScriptBelow where
  names : List String
  text : Option String
deriving DecidableEq, Repr

namespace ScriptBelow

def under (name : String) (s : ScriptBelow) : ScriptBelow := { s with names := name :: s.names }

def file (directory : String) (s : ScriptBelow) : SourceFile :=
  { path := Path.child directory ("/".intercalate s.names), text := s.text }

/-- The names lead from `t` to the script, the last one is the name of a script, and none of them
is excluded. -/
structure LiesIn (exclude : List String) (t : FileTree) (s : ScriptBelow) : Prop where
  leads : t.Leads s.names (.file s.text)
  script : ∃ name ∈ s.names.getLast?, Path.NamesScript name
  kept : ∀ name ∈ s.names, name ∉ exclude

/-- The scripts are those of which `p` holds, each once and ordered name by name. -/
structure Enumerates (p : ScriptBelow → Prop) (scripts : List ScriptBelow) : Prop where
  ordered : scripts.Pairwise fun r s => r.names < s.names
  mem_iff : ∀ s, s ∈ scripts ↔ p s

namespace Enumerates

variable {p q : ScriptBelow → Prop} {scripts others : List ScriptBelow}

theorem congr (h : Enumerates p scripts) (hpq : ∀ s, p s ↔ q s) : Enumerates q scripts where
  ordered := h.ordered
  mem_iff s := (h.mem_iff s).trans (hpq s)

theorem nil (h : ∀ s, ¬ p s) : Enumerates p [] where
  ordered := .nil
  mem_iff s := by simpa using h s

theorem append (h : Enumerates p scripts) (h' : Enumerates q others)
    (hlt : ∀ r s, p r → q s → r.names < s.names) :
    Enumerates (fun s => p s ∨ q s) (scripts ++ others) where
  ordered := List.pairwise_append.2 ⟨h.ordered, h'.ordered, fun r hr s hs =>
    hlt r s ((h.mem_iff r).1 hr) ((h'.mem_iff s).1 hs)⟩
  mem_iff s := by rw [List.mem_append, h.mem_iff, h'.mem_iff]

theorem under (h : Enumerates p scripts) (name : String) :
    Enumerates (fun s => ∃ r, p r ∧ s = r.under name) (scripts.map (.under name)) where
  ordered := List.pairwise_map.2 (h.ordered.imp List.cons_lt_cons_self.2)
  mem_iff s := by
    rw [List.mem_map]
    exact exists_congr fun r => and_congr (h.mem_iff r) eq_comm

/-- What is enumerated leaves no choice of the list. -/
theorem unique (h : Enumerates p scripts) (h' : Enumerates p others) : scripts = others := by
  have hirrefl : Std.Irrefl fun r s : ScriptBelow => r.names < s.names :=
    ⟨fun s => List.lt_irrefl s.names⟩
  refine List.Perm.eq_of_pairwise ?_ h.ordered h'.ordered ?_
  · intro r s _ _ hrs hsr
    exact absurd hsr (List.lt_asymm hrs)
  · rw [List.perm_ext_iff_of_nodup h.ordered.nodup h'.ordered.nodup]
    exact fun s => (h.mem_iff s).trans (h'.mem_iff s).symm

end Enumerates

variable {exclude : List String} {entries : List (String × FileTree)} {name : String}

theorem LiesIn.exists_entry {s : ScriptBelow} (h : s.LiesIn exclude (.directory entries)) :
    ∃ e ∈ entries, ∃ names, s.names = e.1 :: names ∧ e.2.Leads names (.file s.text) := by
  have hleads := h.leads
  cases hnames : s.names with
  | nil =>
    rw [hnames, FileTree.leads_nil_iff] at hleads
    cases hleads
  | cons name names =>
    rw [hnames, FileTree.leads_directory_iff] at hleads
    obtain ⟨t, hmem, hbelow⟩ := hleads
    exact ⟨(name, t), hmem, names, rfl, hbelow⟩

/-- A directory holds what its entries hold on their own. -/
theorem liesIn_iff {s : ScriptBelow} :
    s.LiesIn exclude (.directory entries) ↔ ∃ e ∈ entries, s.LiesIn exclude (.directory [e]) := by
  constructor
  · intro h
    obtain ⟨e, hmem, names, hnames, hbelow⟩ := h.exists_entry
    refine ⟨e, hmem, ?_, h.script, h.kept⟩
    rw [hnames]
    exact .entry List.mem_cons_self hbelow
  · rintro ⟨e, hmem, h⟩
    obtain ⟨e', he', names, hnames, hbelow⟩ := h.exists_entry
    rw [List.mem_singleton.1 he'] at hnames hbelow
    refine ⟨?_, h.script, h.kept⟩
    rw [hnames]
    exact .entry hmem hbelow

theorem liesIn_cons_iff {e : String × FileTree} {s : ScriptBelow} :
    s.LiesIn exclude (.directory (e :: entries)) ↔
      s.LiesIn exclude (.directory [e]) ∨ s.LiesIn exclude (.directory entries) := by
  rw [liesIn_iff, @liesIn_iff _ entries]
  simp

theorem not_liesIn_nil {s : ScriptBelow} : ¬ s.LiesIn exclude (.directory []) := by
  rw [liesIn_iff]
  simp

theorem LiesIn.exists_names {e : String × FileTree} {s : ScriptBelow}
    (h : s.LiesIn exclude (.directory [e])) :
    ∃ names, s.names = e.1 :: names ∧ e.2.Leads names (.file s.text) := by
  obtain ⟨e', he', hbelow⟩ := h.exists_entry
  rwa [List.mem_singleton.1 he'] at hbelow

theorem LiesIn.notMem_exclude {e : String × FileTree} {s : ScriptBelow}
    (h : s.LiesIn exclude (.directory [e])) : e.1 ∉ exclude := by
  obtain ⟨names, hnames, -⟩ := h.exists_names
  exact h.kept e.1 (hnames ▸ List.mem_cons_self)

theorem LiesIn.lt {e f : String × FileTree} {r s : ScriptBelow}
    (hr : r.LiesIn exclude (.directory [e])) (hs : s.LiesIn exclude (.directory [f]))
    (hlt : e.1 < f.1) : r.names < s.names := by
  obtain ⟨names, hnames, -⟩ := hr.exists_names
  obtain ⟨others, hothers, -⟩ := hs.exists_names
  rw [hnames, hothers]
  exact .rel hlt

theorem liesIn_file_iff {text : Option String} {s : ScriptBelow} :
    s.LiesIn exclude (.directory [(name, .file text)]) ↔
      (Path.NamesScript name ∧ name ∉ exclude) ∧ s = { names := [name], text } := by
  constructor
  · intro h
    obtain ⟨names, hnames, hleads⟩ := h.exists_names
    cases names with
    | nil =>
      rw [FileTree.leads_nil_iff, FileTree.file.injEq] at hleads
      obtain ⟨last, hlast, hscript⟩ := h.script
      rw [hnames] at hlast
      obtain rfl : name = last := Option.some.inj hlast
      refine ⟨⟨hscript, h.notMem_exclude⟩, ?_⟩
      rw [hleads, ← hnames]
    | cons first names => exact absurd hleads (FileTree.not_leads_of_leaf rfl)
  · rintro ⟨⟨hscript, hkept⟩, rfl⟩
    exact ⟨.entry List.mem_cons_self (.here _), ⟨name, rfl, hscript⟩, by simpa using hkept⟩

theorem not_liesIn_special {text : Option String} {s : ScriptBelow} :
    ¬ s.LiesIn exclude (.directory [(name, .special text)]) := by
  intro h
  obtain ⟨names, -, hleads⟩ := h.exists_names
  cases names with
  | nil =>
    rw [FileTree.leads_nil_iff] at hleads
    cases hleads
  | cons first names => exact FileTree.not_leads_of_leaf rfl hleads

theorem liesIn_directory_iff {s : ScriptBelow} :
    s.LiesIn exclude (.directory [(name, .directory entries)]) ↔
      name ∉ exclude ∧
        ∃ r : ScriptBelow, r.LiesIn exclude (.directory entries) ∧ s = r.under name := by
  constructor
  · intro h
    obtain ⟨names, hnames, hleads⟩ := h.exists_names
    refine ⟨h.notMem_exclude, { names, text := s.text }, ⟨hleads, ?_, ?_⟩, ?_⟩
    · obtain ⟨last, hlast, hscript⟩ := h.script
      cases names with
      | nil =>
        rw [FileTree.leads_nil_iff] at hleads
        cases hleads
      | cons first names =>
        rw [hnames, List.getLast?_cons_cons] at hlast
        exact ⟨last, hlast, hscript⟩
    · exact fun n hn => h.kept n (hnames ▸ List.mem_cons_of_mem _ hn)
    · show s = { names := name :: names, text := s.text }
      rw [← hnames]
  · rintro ⟨hkept, r, h, rfl⟩
    obtain ⟨e, -, names, hnames, -⟩ := h.exists_entry
    refine ⟨.entry List.mem_cons_self h.leads, ?_, List.forall_mem_cons.2 ⟨hkept, h.kept⟩⟩
    have hscript := h.script
    rw [hnames] at hscript
    rw [under, hnames, List.getLast?_cons_cons]
    exact hscript

/-- Seen from further up, a script has one name more. -/
theorem LiesIn.file_child {s : ScriptBelow} (hname : Path.IsName name)
    (h : s.LiesIn exclude (.directory entries)) (path : String) :
    s.file (Path.child path name) = (s.under name).file path := by
  obtain ⟨e, -, names, hnames, -⟩ := h.exists_entry
  rw [file, file, under, hname.child_child, String.intercalate_cons_of_ne_nil]
  rw [hnames]
  exact List.cons_ne_nil _ _

end ScriptBelow

/-! ## Walks -/

/-- What is known of a walk.  It comes to a directory before what is in it, takes the entries in
the order of their names and each with all that is below it, and does not enter what is not kept. -/
structure Walk.DepthFirst (walk : Walk) : Prop where
  skipped {kept : FileEntry → Bool} {path : String} {t : FileTree}
    (h : kept { path, tree := t } = false) : walk kept path t = []
  leaf {kept : FileEntry → Bool} {path : String} {t : FileTree} (ht : t.isDirectory = false)
    (h : kept { path, tree := t } = true) : walk kept path t = [{ path, tree := t }]
  directory {kept : FileEntry → Bool} {path : String} {entries : List (String × FileTree)}
    (h : kept { path, tree := .directory entries } = true) :
    ∃ sorted : List (String × FileTree), sorted.Perm entries ∧
      sorted.Pairwise (fun a b => a.1 ≤ b.1) ∧
      walk kept path (.directory entries) =
        { path, tree := .directory entries } :: sorted.flatMap fun e =>
          (walk (fun below => kept below.deeper) (Path.child path e.1) e.2).map FileEntry.deeper

namespace Walk

theorem placeByName_perm {α : Type} (x : String × α) (xs : List (String × α)) :
    (placeByName x xs).Perm (x :: xs) := by
  induction xs with
  | nil => exact .refl _
  | cons y ys ih =>
    rw [placeByName]
    split
    · exact .refl _
    · exact (ih.cons y).trans (.swap x y ys)

theorem sortByName_perm {α : Type} (xs : List (String × α)) : (sortByName xs).Perm xs := by
  induction xs with
  | nil => exact .refl _
  | cons x xs ih => exact (placeByName_perm x _).trans (ih.cons x)

theorem pairwise_placeByName {α : Type} (x : String × α) {xs : List (String × α)}
    (h : xs.Pairwise fun a b => a.1 ≤ b.1) :
    (placeByName x xs).Pairwise fun a b => a.1 ≤ b.1 := by
  induction xs with
  | nil => exact List.pairwise_singleton _ _
  | cons y ys ih =>
    obtain ⟨hy, hys⟩ := List.pairwise_cons.1 h
    rw [placeByName]
    split
    · rename_i hle
      refine List.pairwise_cons.2 ⟨List.forall_mem_cons.2 ⟨hle, fun z hz => ?_⟩, h⟩
      exact String.le_trans hle (hy z hz)
    · rename_i hle
      refine List.pairwise_cons.2 ⟨fun z hz => ?_, ih hys⟩
      rcases List.mem_cons.1 ((placeByName_perm x ys).mem_iff.1 hz) with rfl | hz
      · exact (String.le_total y.1 z.1).resolve_right hle
      · exact hy z hz

theorem pairwise_sortByName {α : Type} (xs : List (String × α)) :
    (sortByName xs).Pairwise fun a b => a.1 ≤ b.1 := by
  induction xs with
  | nil => exact .nil
  | cons x xs ih => exact pairwise_placeByName x ih

theorem placeByName_map {α β : Type} {f : String × α → String × β} (hf : ∀ x, (f x).1 = x.1)
    (x : String × α) (xs : List (String × α)) :
    placeByName (f x) (xs.map f) = (placeByName x xs).map f := by
  induction xs with
  | nil => rfl
  | cons y ys ih =>
    rw [List.map_cons, placeByName, placeByName, hf, hf]
    split
    · rfl
    · rw [ih, List.map_cons]

theorem sortByName_map {α β : Type} {f : String × α → String × β} (hf : ∀ x, (f x).1 = x.1)
    (xs : List (String × α)) : sortByName (xs.map f) = (sortByName xs).map f := by
  induction xs with
  | nil => rfl
  | cons x xs ih =>
    show placeByName (f x) (sortByName (xs.map f)) = _
    rw [ih, placeByName_map hf]
    rfl

theorem each_eq (kept : FileEntry → Bool) (path : String) (entries : List (String × FileTree)) :
    each kept path entries =
      entries.map fun e => (e.1, byName kept (Path.child path e.1) e.2) := by
  induction entries with
  | nil => rfl
  | cons e entries ih => rw [each, ih, List.map_cons]

theorem byName_of_leaf (kept : FileEntry → Bool) (path : String) {t : FileTree}
    (ht : t.isDirectory = false) :
    byName kept path t = if kept { path, tree := t } then [{ path, tree := t }] else [] := by
  cases t with
  | file | special => rw [byName]; exact nofun
  | directory => cases ht

theorem byName_depthFirst : DepthFirst byName where
  skipped {kept path t} h := by
    cases t with
    | file | special => rw [byName_of_leaf kept path rfl, if_neg (by simp [h])]
    | directory entries => rw [byName, if_neg (by simp [h])]
  leaf ht h := by rw [byName_of_leaf _ _ ht, if_pos h]
  directory {kept path entries} h := by
    refine ⟨sortByName entries, sortByName_perm entries, pairwise_sortByName entries, ?_⟩
    rw [byName, if_pos h, each_eq, sortByName_map, List.flatMap_map]
    exact fun _ => rfl

end Walk

namespace Discovery

/-- The files are the scripts in a directory as they are seen from its path. -/
def Lists (exclude : List String) (path : String) (entries : List (String × FileTree))
    (files : List SourceFile) : Prop :=
  ∃ scripts, ScriptBelow.Enumerates (ScriptBelow.LiesIn exclude (.directory entries)) scripts ∧
    files = scripts.map (ScriptBelow.file path)

/-- Below where it starts from, a walk keeps what is not excluded. -/
def isInside (exclude : List String) (e : FileEntry) : Bool := !exclude.contains e.name

variable {exclude : List String} {path name : String} {entries : List (String × FileTree)}
  {files : List SourceFile}

theorem isInside_child (hname : Path.IsName name) {t : FileTree} :
    isInside exclude { path := Path.child path name, tree := t } = true ↔ name ∉ exclude := by
  simp [isInside, FileEntry.name, hname.fileName?_child]

namespace Lists

theorem excluded (h : name ∈ exclude) (t : FileTree) : Lists exclude path [(name, t)] [] :=
  ⟨[], .nil fun _ hs => hs.notMem_exclude h, rfl⟩

theorem file (hname : Path.IsName name) (h : name ∉ exclude) (text : Option String) :
    Lists exclude path [(name, .file text)]
      (FileEntry.script? { path := Path.child path name, tree := .file text }).toList := by
  by_cases hscript : Path.NamesScript name
  · have hpath := (hname.isScript_child path).2 hscript
    refine ⟨[{ names := [name], text }], ⟨List.pairwise_singleton _ _, fun s => ?_⟩, ?_⟩
    · rw [List.mem_singleton, ScriptBelow.liesIn_file_iff]
      exact ⟨fun hs => ⟨⟨hscript, h⟩, hs⟩, fun hs => hs.2⟩
    · simp [FileEntry.script?, hpath, ScriptBelow.file]
  · have hpath := mt (hname.isScript_child path).1 hscript
    refine ⟨[], .nil fun s hs => ?_, ?_⟩
    · exact hscript (ScriptBelow.liesIn_file_iff.1 hs).1.1
    · simp [FileEntry.script?, hpath]

theorem special (path name : String) (text : Option String) :
    Lists exclude path [(name, .special text)] [] :=
  ⟨[], .nil fun _ => ScriptBelow.not_liesIn_special, rfl⟩

theorem under (hname : Path.IsName name) (h : name ∉ exclude)
    (hfiles : Lists exclude (Path.child path name) entries files) :
    Lists exclude path [(name, .directory entries)] files := by
  obtain ⟨scripts, hscripts, rfl⟩ := hfiles
  refine ⟨scripts.map (.under name), (hscripts.under name).congr fun s => ?_, ?_⟩
  · rw [ScriptBelow.liesIn_directory_iff]
    exact (and_iff_right h).symm
  · rw [List.map_map]
    refine List.map_congr_left fun s hs => ?_
    exact ((hscripts.mem_iff s).1 hs).file_child hname path

theorem flatMap {f : String × FileTree → List SourceFile}
    (hsorted : entries.Pairwise fun a b => a.1 < b.1)
    (h : ∀ e ∈ entries, Lists exclude path [e] (f e)) :
    Lists exclude path entries (entries.flatMap f) := by
  induction entries with
  | nil => exact ⟨[], .nil fun _ => ScriptBelow.not_liesIn_nil, rfl⟩
  | cons e entries ih =>
    rw [List.pairwise_cons] at hsorted
    rw [List.forall_mem_cons] at h
    obtain ⟨scripts, hscripts, hfirst⟩ := h.1
    obtain ⟨others, hothers, hrest⟩ := ih hsorted.2 h.2
    refine ⟨scripts ++ others, (hscripts.append hothers ?_).congr fun s => ?_, ?_⟩
    · intro r s hr hs
      obtain ⟨e', he', hs⟩ := ScriptBelow.liesIn_iff.1 hs
      exact hr.lt hs (hsorted.1 e' he')
    · exact ScriptBelow.liesIn_cons_iff.symm
    · rw [List.flatMap_cons, hfirst, hrest, List.map_append]

theorem of_perm {others : List (String × FileTree)} (h : Lists exclude path others files)
    (hperm : others.Perm entries) : Lists exclude path entries files := by
  obtain ⟨scripts, hscripts, hfiles⟩ := h
  refine ⟨scripts, hscripts.congr fun s => ?_, hfiles⟩
  rw [ScriptBelow.liesIn_iff, @ScriptBelow.liesIn_iff _ entries]
  exact exists_congr fun e => and_congr_left' hperm.mem_iff

theorem unique {others : List SourceFile} (h : Lists exclude path entries files)
    (h' : Lists exclude path entries others) : files = others := by
  obtain ⟨scripts, hscripts, rfl⟩ := h
  obtain ⟨scripts', hscripts', rfl⟩ := h'
  rw [hscripts.unique hscripts']

end Lists

/-! ## What is found -/

variable {walk : Walk}

theorem lt_of_distinct {sorted : List (String × FileTree)}
    (hle : sorted.Pairwise fun a b => a.1 ≤ b.1) (hne : (sorted.map Prod.fst).Nodup) :
    sorted.Pairwise fun a b => a.1 < b.1 := by
  refine (hle.and (List.pairwise_map.1 hne)).imp fun {a b} h => ?_
  exact String.not_le.1 fun hba => h.2 (String.le_antisymm h.1 hba)

theorem skipped_child (hwalk : walk.DepthFirst) (hname : Path.IsName name) (h : name ∈ exclude)
    (t : FileTree) : walk (isInside exclude) (Path.child path name) t = [] := by
  refine hwalk.skipped (Bool.eq_false_iff.2 fun hkept => ?_)
  exact (isInside_child hname).1 hkept h

/-- A walk through a directory finds what lies in it, if a walk through each entry does. -/
theorem lists_of_entries (hwalk : walk.DepthFirst) {kept : FileEntry → Bool}
    (hkept : kept { path, tree := .directory entries } = true)
    (hinside : ∀ e, kept (FileEntry.deeper e) = isInside exclude e)
    (hdistinct : (entries.map Prod.fst).Nodup)
    (h : ∀ e ∈ entries, Lists exclude path [e]
      ((walk (isInside exclude) (Path.child path e.1) e.2).filterMap FileEntry.script?)) :
    Lists exclude path entries
      ((walk kept path (.directory entries)).filterMap FileEntry.script?) := by
  obtain ⟨sorted, hperm, hle, hwalked⟩ := hwalk.directory hkept
  have hlt := lt_of_distinct hle ((hperm.map Prod.fst).nodup_iff.2 hdistinct)
  have hdeeper : (fun below => kept (FileEntry.deeper below)) = isInside exclude := funext hinside
  have hscripts (es : List FileEntry) :
      (es.map FileEntry.deeper).filterMap FileEntry.script? = es.filterMap FileEntry.script? :=
    List.filterMap_map
  rw [hwalked, hdeeper, List.filterMap_cons_none rfl, List.filterMap_flatMap]
  simp only [hscripts]
  exact (Lists.flatMap hlt fun e he => h e (hperm.mem_iff.1 he)).of_perm hperm

/-- A walk through an entry finds what lies in the directory because of that entry. -/
theorem lists_entry (hwalk : walk.DepthFirst) {t : FileTree} (ht : t.Proper)
    (hname : Path.IsName name) :
    Lists exclude path [(name, t)]
      ((walk (isInside exclude) (Path.child path name) t).filterMap FileEntry.script?) := by
  induction ht generalizing path name with
  | file text =>
    by_cases hex : name ∈ exclude
    · rw [skipped_child hwalk hname hex]
      exact .excluded hex _
    · rw [hwalk.leaf rfl ((isInside_child hname).2 hex)]
      exact .file hname hex text
  | special text =>
    by_cases hex : name ∈ exclude
    · rw [skipped_child hwalk hname hex]
      exact .excluded hex _
    · rw [hwalk.leaf rfl ((isInside_child hname).2 hex)]
      exact .special path name text
  | directory distinct named proper ih =>
    by_cases hex : name ∈ exclude
    · rw [skipped_child hwalk hname hex]
      exact .excluded hex _
    · refine .under hname hex ?_
      exact lists_of_entries hwalk ((isInside_child hname).2 hex) (fun _ => rfl) distinct
        fun e he => ih e he (named e he)

/-- What is found at one path: nothing if a name on it is excluded, the scripts below a directory,
and of what else stands there the path itself if it is the path of a script. -/
inductive Yields (view : FileView) (exclude : List String) (path : String) :
    List SourceFile → Prop where
  | excluded (h : ∃ name ∈ Path.names path, name ∈ exclude) : Yields view exclude path []
  | script {text : Option String} (kept : ∀ name ∈ Path.names path, name ∉ exclude)
      (stands : view path = .ok (.file text) ∨ view path = .ok (.special text))
      (h : Path.isScript path = true) : Yields view exclude path [{ path, text }]
  | other {text : Option String} (kept : ∀ name ∈ Path.names path, name ∉ exclude)
      (stands : view path = .ok (.file text) ∨ view path = .ok (.special text))
      (h : Path.isScript path = false) : Yields view exclude path []
  | directory {entries : List (String × FileTree)} {files : List SourceFile}
      (kept : ∀ name ∈ Path.names path, name ∉ exclude)
      (stands : view path = .ok (.directory entries)) (h : Lists exclude path entries files) :
      Yields view exclude path files

theorem isExcluded_iff :
    isExcluded exclude path = true ↔ ∃ name ∈ Path.names path, name ∈ exclude := by
  simp [isExcluded]

theorem isExcluded_eq_false_iff :
    isExcluded exclude path = false ↔ ∀ name ∈ Path.names path, name ∉ exclude := by
  simp [isExcluded]

/-- From the start of a walk its directory is found, by whatever name. -/
theorem lists_directory (hwalk : walk.DepthFirst) (h : (FileTree.directory entries).Proper) :
    Lists exclude path entries
      ((walk (isKept exclude) path (.directory entries)).filterMap FileEntry.script?) := by
  cases h with
  | directory distinct named proper =>
    refine lists_of_entries hwalk rfl (fun e => ?_) distinct fun e he =>
      lists_entry hwalk (proper e he) (named e he)
    simp [isKept, isInside, FileEntry.deeper, FileEntry.name]

variable {view : FileView}

theorem atPath_of_stands (hex : isExcluded exclude path = false) {text : Option String}
    (h : view path = .ok (.file text) ∨ view path = .ok (.special text)) :
    atPath walk view exclude path = .ok (if Path.isScript path then [{ path, text }] else []) := by
  rw [atPath, hex, if_neg Bool.false_ne_true]
  rcases h with h | h <;> rw [h]

theorem yields_of_stands (hex : isExcluded exclude path = false) {text : Option String}
    (h : view path = .ok (.file text) ∨ view path = .ok (.special text)) :
    Yields view exclude path (if Path.isScript path then [{ path, text }] else []) := by
  have hkept := isExcluded_eq_false_iff.1 hex
  cases hscript : Path.isScript path with
  | true => exact .script hkept h hscript
  | false => exact .other hkept h hscript

theorem yields_of_atPath (hwalk : walk.DepthFirst) (hview : view.Proper)
    (h : atPath walk view exclude path = .ok files) : Yields view exclude path files := by
  cases hex : isExcluded exclude path with
  | true =>
    rw [atPath, if_pos hex] at h
    obtain rfl : [] = files := Except.ok.inj h
    exact .excluded (isExcluded_iff.1 hex)
  | false =>
    cases hlook : view path with
    | error cause =>
      rw [atPath, hex, if_neg Bool.false_ne_true, hlook] at h
      cases h
    | ok t =>
      cases t with
      | file text =>
        rw [atPath_of_stands hex (.inl hlook)] at h
        rw [← Except.ok.inj h]
        exact yields_of_stands hex (.inl hlook)
      | special text =>
        rw [atPath_of_stands hex (.inr hlook)] at h
        rw [← Except.ok.inj h]
        exact yields_of_stands hex (.inr hlook)
      | directory entries =>
        rw [atPath, hex, if_neg Bool.false_ne_true, hlook] at h
        obtain rfl : _ = files := Except.ok.inj h
        exact .directory (isExcluded_eq_false_iff.1 hex) hlook
          (lists_directory hwalk (hview hlook))

theorem atPath_eq_ok_iff (hwalk : walk.DepthFirst) (hview : view.Proper) :
    atPath walk view exclude path = .ok files ↔ Yields view exclude path files := by
  refine ⟨yields_of_atPath hwalk hview, fun h => ?_⟩
  cases h with
  | excluded h => rw [atPath, if_pos (isExcluded_iff.2 h)]
  | script kept stands h =>
    rw [atPath_of_stands (isExcluded_eq_false_iff.2 kept) stands, if_pos h]
  | other kept stands h =>
    rw [atPath_of_stands (isExcluded_eq_false_iff.2 kept) stands, h, if_neg Bool.false_ne_true]
  | directory kept stands h =>
    rw [atPath, isExcluded_eq_false_iff.2 kept, if_neg Bool.false_ne_true, stands]
    exact congrArg _ ((lists_directory hwalk (hview stands)).unique h)

theorem atPath_eq_error_iff {e : PathError} :
    atPath walk view exclude path = .error e ↔
      (∀ name ∈ Path.names path, name ∉ exclude) ∧ view path = .error e.cause ∧
        e.path = path := by
  cases hex : isExcluded exclude path with
  | true =>
    obtain ⟨name, hmem, hname⟩ := isExcluded_iff.1 hex
    rw [atPath, if_pos hex]
    exact ⟨nofun, fun h => absurd hname (h.1 name hmem)⟩
  | false =>
    rw [atPath, hex, if_neg Bool.false_ne_true, and_iff_right (isExcluded_eq_false_iff.1 hex)]
    cases hlook : view path with
    | ok t => cases t <;> exact ⟨nofun, fun h => nomatch h.1⟩
    | error cause =>
      cases e
      simp only [Except.error.injEq, PathError.mk.injEq]
      exact ⟨fun h => ⟨h.2, h.1.symm⟩, fun h => ⟨h.2.symm, h.1⟩⟩

section Turn

variable {ε α β : Type} {f : α → Except ε β}

theorem mapM_eq_ok_iff {xs : List α} {ys : List β} :
    xs.mapM f = .ok ys ↔ List.Forall₂ (fun x y => f x = .ok y) xs ys := by
  induction xs generalizing ys with
  | nil => cases ys <;> simp [pure, Except.pure]
  | cons x xs ih =>
    rw [List.mapM_cons]
    cases hx : f x with
    | error e => cases ys <;> simp [bind, Except.bind, hx]
    | ok y =>
      cases hxs : xs.mapM f with
      | error e => cases ys <;> simp [bind, Except.bind, hx, ← ih, hxs]
      | ok ys' => cases ys <;> simp [bind, Except.bind, pure, Except.pure, hx, ← ih, hxs]

theorem exists_of_mapM_eq_error {xs : List α} {e : ε} (h : xs.mapM f = .error e) :
    ∃ x ∈ xs, f x = .error e := by
  induction xs with
  | nil => cases h
  | cons x xs ih =>
    rw [List.mapM_cons] at h
    cases hx : f x with
    | error e' =>
      rw [hx] at h
      cases h
      exact ⟨x, List.mem_cons_self, hx⟩
    | ok y =>
      cases hxs : xs.mapM f with
      | error e' =>
        rw [hx, hxs] at h
        cases h
        obtain ⟨x', hmem, hx'⟩ := ih hxs
        exact ⟨x', List.mem_cons_of_mem _ hmem, hx'⟩
      | ok ys =>
        rw [hx, hxs] at h
        cases h

/-- A step that fails makes the whole fail, though an earlier one may be what is reported. -/
theorem exists_mapM_eq_error {xs : List α} {x : α} {e : ε} (hmem : x ∈ xs)
    (hx : f x = .error e) : ∃ e', xs.mapM f = .error e' := by
  induction xs with
  | nil => cases hmem
  | cons x' xs ih =>
    rw [List.mapM_cons]
    cases hx' : f x' with
    | error e' => exact ⟨e', rfl⟩
    | ok y =>
      rcases List.mem_cons.1 hmem with rfl | hmem
      · rw [hx] at hx'
        cases hx'
      · obtain ⟨e', he'⟩ := ih hmem
        exact ⟨e', by rw [he']; rfl⟩

end Turn

theorem findBy_eq_ok_iff {paths : List String} {found : List SourceFile} :
    findBy walk view exclude paths = .ok found ↔
      ∃ lists, List.Forall₂ (fun path files => atPath walk view exclude path = .ok files)
        paths lists ∧ found = lists.flatten := by
  simp only [← mapM_eq_ok_iff, findBy]
  cases paths.mapM (atPath walk view exclude) with
  | error e => exact ⟨nofun, fun ⟨_, h, _⟩ => nomatch h⟩
  | ok lists =>
    constructor
    · intro h
      exact ⟨lists, rfl, (Except.ok.inj h).symm⟩
    · rintro ⟨_, h, rfl⟩
      rw [Except.ok.inj h]
      rfl

theorem findBy_eq_error_iff {paths : List String} {e : PathError} :
    findBy walk view exclude paths = .error e ↔
      paths.mapM (atPath walk view exclude) = .error e := by
  simp only [findBy]
  cases paths.mapM (atPath walk view exclude) with
  | error e' =>
    constructor
    · intro h
      rw [Except.error.inj h]
    · intro h
      rw [Except.error.inj h]
      rfl
  | ok lists => exact ⟨nofun, nofun⟩

/-- Looking for scripts fails where a path that is not excluded leads nowhere, and then says why.
Otherwise it finds, path after path, exactly what each of them yields. -/
theorem found_exactly (hwalk : walk.DepthFirst) (hview : view.Proper)
    (exclude paths : List String) :
    ((∃ e, findBy walk view exclude paths = .error e) ↔
      ∃ path ∈ paths, (∀ name ∈ Path.names path, name ∉ exclude) ∧ ∀ t, view path ≠ .ok t) ∧
    (∀ e, findBy walk view exclude paths = .error e →
      e.path ∈ paths ∧ view e.path = .error e.cause) ∧
    ∀ found, findBy walk view exclude paths = .ok found ↔
      ∃ lists, List.Forall₂ (Yields view exclude) paths lists ∧ found = lists.flatten := by
  refine ⟨⟨?_, ?_⟩, ?_, fun found => ?_⟩
  · rintro ⟨e, h⟩
    obtain ⟨path, hmem, hpath⟩ := exists_of_mapM_eq_error (findBy_eq_error_iff.1 h)
    obtain ⟨hkept, hlook, -⟩ := atPath_eq_error_iff.1 hpath
    refine ⟨path, hmem, hkept, fun t ht => ?_⟩
    rw [hlook] at ht
    cases ht
  · rintro ⟨path, hmem, hkept, hnone⟩
    cases hlook : view path with
    | ok t => exact absurd hlook (hnone t)
    | error cause =>
      have hpath : atPath walk view exclude path = .error { path, cause } :=
        atPath_eq_error_iff.2 ⟨hkept, hlook, rfl⟩
      obtain ⟨e, he⟩ := exists_mapM_eq_error hmem hpath
      exact ⟨e, findBy_eq_error_iff.2 he⟩
  · intro e h
    obtain ⟨path, hmem, hpath⟩ := exists_of_mapM_eq_error (findBy_eq_error_iff.1 h)
    obtain ⟨-, hlook, hname⟩ := atPath_eq_error_iff.1 hpath
    rw [hname]
    exact ⟨hmem, hlook⟩
  · simp only [findBy_eq_ok_iff, atPath_eq_ok_iff hwalk hview]

/-- A name is excluded below the paths and on them, a pipe counts where a path names it, and a
script that two paths lead to is found twice. -/
theorem found_exactly_nested :
    let files := (((FileTree.empty.addFile "home/b/x.js" none).addFile "home/b/tests/t.js"
      none).addFile "home/a.js" (some "")).addDirectory "home/c/tests"
    let root := FileTree.put (.special none) (Path.names "home/p.js") files
    let view := FileSystem.look { root, directory := ["home"] }
    Walk.DepthFirst Walk.byName ∧ view.Proper ∧
      ∃ lists, List.Forall₂ (Yields view ["tests"])
          [".", "/home/b", "/../home/b/tests/t.js", "b/../p.js", "none/tests"] lists ∧
        [{ path := "./a.js", text := some "" }, { path := "./b/x.js", text := none },
          { path := "/home/b/x.js", text := none }, { path := "b/../p.js", text := none }] =
            lists.flatten := by
  intro files root view
  have hfiles : files.InOrder :=
    (((FileTree.inOrder_empty.addFile _ _).addFile _ _).addFile _ _).addDirectory _
  have hroot : root.InOrder :=
    .put (.special none) (fun _ => FileTree.isName_of_mem_names) hfiles
  have hview : view.Proper := FileSystem.proper_look hroot.proper
  refine ⟨Walk.byName_depthFirst, hview, ?_⟩
  refine ((found_exactly Walk.byName_depthFirst hview _ _).2.2 _).1 ?_
  decide +kernel

end Discovery

end ScriptOutline
