import TypeErasure.Proofs.Action
import TypeErasure.Proofs.FileTree
import TypeErasure.Proofs.Walk

/-!
# The source files of a directory

What inputs stand for is said without a walk: a directory stands for the source files below it that
are not below a directory that is left out (`FileTree.SourceAt`), each with its path and in the
order of their places, and any other input for itself (`FileSystem.Contributes`,
`FileSystem.Collects`).

A walker that obeys the laws finds just that. The induction is on the walk (`Walks.finds`): of an
entry it finds the source files below that entry, and of the entries of a directory those of each in
turn. All places below an entry start with its name, so those of different entries are ordered as
the names are.

Main statement: `Action.collect_eq_ok_iff`.
-/

namespace TypeErasure

namespace FileTree

/-! ### Trees -/

/-- **The tree can be one of a file system**: no directory holds two entries with one name, and all
names are names that an entry can have. -/
inductive WellFormed : FileTree → Prop where
  | file (content : Bytes) : WellFormed (file content)
  | dir {entries : List (String × FileTree)} (distinct : (entries.map (·.1)).Nodup)
      (names : ∀ entry ∈ entries, IsName entry.1)
      (trees : ∀ entry ∈ entries, WellFormed entry.2) : WellFormed (dir entries)

/-- **The place is that of a source file** which is not below a directory that is left out: a file
whose name ends with the extension `.ts` behind at least one character. -/
def SourceAt (t : FileTree) (place : List String) : Prop :=
  ∃ dirs stem content, place = dirs ++ [stem ++ ".ts"] ∧ stem ≠ "" ∧
    t.get? place = some (file content) ∧ ∀ d ∈ dirs, d ≠ "out" ∧ d ≠ "node_modules"

/-- The entry of a directory under a name, if names are distinct. By induction on the entries: the
first one under a name hides no other one. -/
private theorem lookup_eq_some_iff {entries : List (String × FileTree)}
    (h : (entries.map (·.1)).Nodup) {name : String}
    {t : FileTree} : entries.lookup name = some t ↔ (name, t) ∈ entries := by
  induction entries with
  | nil => simp
  | cons entry rest ih =>
    obtain ⟨key, u⟩ := entry
    rw [List.map_cons, List.nodup_cons] at h
    rw [lookup_cons_ite, List.mem_cons, Prod.mk.injEq]
    by_cases hkey : name = key
    · -- the first entry has this name, and no other one does
      subst hkey
      have hnot : (name, t) ∉ rest := fun hmem => h.1 (List.mem_map.mpr ⟨_, hmem, rfl⟩)
      rw [if_pos rfl, Option.some.injEq]
      simp [hnot, eq_comm]
    · rw [if_neg hkey, ih h.2]
      simp [hkey]

/-! ### One directory -/

section Places

variable {entries : List (String × FileTree)} {name : String} {rest : List String}

private theorem mem_skippedDirs {d : String} :
    d ∈ skippedDirs ↔ d = "out" ∨ d = "node_modules" := by
  simp [skippedDirs]

/-- The directory itself is no source file below it, since the place of one ends with a name. -/
private theorem not_sourceAt_nil {t : FileTree} : ¬ t.SourceAt [] := by
  rintro ⟨dirs, stem, content, hplace, -⟩
  simp at hplace

/-- A place with one name is that of an entry. No directory is passed on the way to it. -/
private theorem sourceAt_single :
    (dir entries).SourceAt [name] ↔
      (∃ stem, stem ≠ "" ∧ name = stem ++ ".ts") ∧
        ∃ content, entries.lookup name = some (file content) := by
  have hget : (dir entries).get? [name] = entries.lookup name := by
    rw [get?_cons]
    cases entries.lookup name <;> rfl
  rw [SourceAt, hget]
  constructor
  · rintro ⟨dirs, stem, content, hplace, hstem, hfile, -⟩
    have hname : name = stem ++ ".ts" := by
      simpa using congrArg List.getLast? hplace
    exact ⟨⟨stem, hstem, hname⟩, content, hfile⟩
  · rintro ⟨⟨stem, hstem, rfl⟩, content, hfile⟩
    exact ⟨[], stem, content, rfl, hstem, hfile, fun d hd => absurd hd List.not_mem_nil⟩

/-- A place with more names leads through an entry, which must not be left out. The name of this
entry is the first of the directories on the way. -/
private theorem sourceAt_cons (hrest : rest ≠ []) :
    (dir entries).SourceAt (name :: rest) ↔
      name ∉ skippedDirs ∧ ∃ t, entries.lookup name = some t ∧ t.SourceAt rest := by
  rw [SourceAt, mem_skippedDirs, not_or]
  simp only [get?_cons, Option.bind_eq_some_iff]
  constructor
  · rintro ⟨dirs, stem, content, hplace, hstem, ⟨t, ht, hfile⟩, hdirs⟩
    -- a place that goes on leads through a directory
    cases dirs with
    | nil => simp [hrest] at hplace
    | cons d dirs =>
      obtain ⟨rfl, rfl⟩ := List.cons.inj hplace
      exact ⟨hdirs name List.mem_cons_self, t, ht, dirs, stem, content, rfl, hstem, hfile,
        fun d hd => hdirs d (List.mem_cons_of_mem _ hd)⟩
  · rintro ⟨hname, t, ht, dirs, stem, content, rfl, hstem, hfile, hdirs⟩
    refine ⟨name :: dirs, stem, content, rfl, hstem, ⟨t, ht, hfile⟩, fun d hd => ?_⟩
    -- the first directory on the way is the entry, and the others are those below it
    rcases List.mem_cons.mp hd with rfl | hd
    · exact hname
    · exact hdirs d hd

/-- Below a file there is nothing. -/
private theorem not_sourceAt_file {content : Bytes} {place : List String} :
    ¬ (file content).SourceAt place := by
  intro h
  cases place with
  | nil => exact not_sourceAt_nil h
  | cons name rest =>
    obtain ⟨dirs, stem, content, -, -, hfile, -⟩ := h
    simp [get?] at hfile

/-- The place leads through the given entry to a source file: to the entry itself if it is a file,
and to a source file below it if it is a directory that is not left out. -/
def SourceVia : String × FileTree → List String → Prop
  | (name, file _), place => (∃ stem, stem ≠ "" ∧ name = stem ++ ".ts") ∧ place = [name]
  | (name, dir es), place =>
    name ∉ skippedDirs ∧ ∃ rest, place = name :: rest ∧ (dir es).SourceAt rest

/-- A place through an entry starts with its name. -/
private theorem SourceVia.exists_eq_cons {entry : String × FileTree} {place : List String}
    (h : SourceVia entry place) : ∃ rest, place = entry.1 :: rest := by
  obtain ⟨name, t⟩ := entry
  cases t with
  | file content => exact ⟨[], h.2⟩
  | dir es =>
    obtain ⟨-, rest, rfl, -⟩ := h
    exact ⟨rest, rfl⟩

/-- **A place through an entry is one of the directory**, if the entry is found under its name. One
case for each kind of entry, and for whether the place ends with its name. -/
private theorem sourceVia_iff_of_lookup {t : FileTree} (h : entries.lookup name = some t) :
    SourceVia (name, t) (name :: rest) ↔ (dir entries).SourceAt (name :: rest) := by
  cases t with
  | file content =>
    cases rest with
    | nil => simp [SourceVia, sourceAt_single, h]
    | cons next rest =>
      -- nothing is below a file
      simp [SourceVia, sourceAt_cons, h, not_sourceAt_file]
  | dir es =>
    cases rest with
    | nil =>
      -- a directory is no source file
      simp [SourceVia, sourceAt_single, h, not_sourceAt_nil]
    | cons next rest => simp [SourceVia, sourceAt_cons, h]

/-- **The source files below a directory are those below its entries.** Names are distinct, so the
first name of a place tells the entry that the place leads through. -/
theorem sourceAt_dir_iff (distinct : (entries.map (·.1)).Nodup) {place : List String} :
    (dir entries).SourceAt place ↔ ∃ entry ∈ entries, SourceVia entry place := by
  constructor
  · -- the place starts with a name, and the entry under this name is the one that it leads through
    intro h
    cases place with
    | nil => exact absurd h not_sourceAt_nil
    | cons name rest =>
      obtain ⟨t, hlookup⟩ : ∃ t, entries.lookup name = some t := by
        obtain ⟨-, -, content, -, -, hfile, -⟩ := h
        rw [get?_cons, Option.bind_eq_some_iff] at hfile
        obtain ⟨t, ht, -⟩ := hfile
        exact ⟨t, ht⟩
      exact ⟨(name, t), (lookup_eq_some_iff distinct).mp hlookup,
        (sourceVia_iff_of_lookup hlookup).mpr h⟩
  · rintro ⟨⟨name, t⟩, hmem, hvia⟩
    obtain ⟨rest, rfl⟩ := hvia.exists_eq_cons
    exact (sourceVia_iff_of_lookup ((lookup_eq_some_iff distinct).mpr hmem)).mp hvia

end Places

/-! ### Order -/

/-- The names along a place as bytes. Places are compared name by name, and names byte by byte. -/
def nameBytes (place : List String) : List (List Byte) :=
  place.map fun name => (Bytes.ofString name).toList

/-- Places below one entry are ordered as they are without its name. -/
private theorem nameBytes_cons_lt (name : String) {p q : List String}
    (h : nameBytes p < nameBytes q) : nameBytes (name :: p) < nameBytes (name :: q) :=
  List.cons_lt_cons_iff.mpr (.inr ⟨rfl, h⟩)

/-- Different names whose bytes are ordered are strictly ordered, as two texts with the same bytes
are the same. -/
private theorem nameBytes_lt_of_le {a b : String} (hne : a ≠ b)
    (hle : (Bytes.ofString a).toList ≤ (Bytes.ofString b).toList) (p q : List String) :
    nameBytes (a :: p) < nameBytes (b :: q) := by
  -- otherwise the names would be ordered the other way round
  refine List.cons_lt_cons_iff.mpr (.inl (Bytes.ofString_lt ?_))
  apply Decidable.byContradiction
  intro hnot
  have hba : b ≤ a := String.not_lt.mp hnot
  have hlt : b < a := by
    apply Decidable.byContradiction
    exact fun hnot' => hne (String.le_antisymm (String.not_lt.mp hnot') hba)
  exact hle (Bytes.ofString_lt hlt)

/-- Strictly ordered places are distinct. -/
private theorem ne_of_nameBytes_lt {p q : List String} (h : nameBytes p < nameBytes q) : p ≠ q := by
  rintro rfl
  exact List.lt_irrefl _ h

/-- **Strictly ordered places are known from what they are**, whatever list they come in. The two
lists hold the same places, each once, so one permutes the other, and an order leaves no choice. -/
theorem eq_of_pairwise {ps qs : List (List String)}
    (hps : ps.Pairwise fun p q => nameBytes p < nameBytes q)
    (hqs : qs.Pairwise fun p q => nameBytes p < nameBytes q) (h : ∀ p, p ∈ ps ↔ p ∈ qs) :
    ps = qs := by
  have hperm : ps.Perm qs :=
    (List.perm_ext_iff_of_nodup (hps.imp ne_of_nameBytes_lt) (hqs.imp ne_of_nameBytes_lt)).mpr h
  exact hperm.eq_of_pairwise (fun p q _ _ hpq hqp => absurd hqp (List.lt_asymm hpq)) hps hqs

/-! ### Well-formed trees -/

section WellFormed

variable {entries sorted : List (String × FileTree)}

/-- The order in which a directory has its entries makes no difference. -/
theorem WellFormed.perm (h : (FileTree.dir entries).WellFormed) (perm : sorted.Perm entries) :
    (FileTree.dir sorted).WellFormed := by
  cases h with
  | dir distinct names trees =>
    exact .dir ((perm.map _).nodup_iff.mpr distinct) (fun e he => names e (perm.mem_iff.mp he))
      fun e he => trees e (perm.mem_iff.mp he)

/-- The source files below a directory are those below its entries, in whatever order these come. -/
private theorem WellFormed.sourceVia_iff_of_perm (h : (FileTree.dir entries).WellFormed)
    (perm : sorted.Perm entries) {place : List String} :
    (∃ entry ∈ sorted, SourceVia entry place) ↔ (FileTree.dir entries).SourceAt place := by
  cases h with
  | dir distinct names trees =>
    rw [sourceAt_dir_iff distinct]
    simp only [perm.mem_iff]

end WellFormed

/-- What is found in a well-formed tree is well-formed. By induction on the place. -/
theorem WellFormed.get? {t u : FileTree} (h : t.WellFormed) {place : List String}
    (hu : t.get? place = some u) : u.WellFormed := by
  induction place generalizing t with
  | nil =>
    obtain rfl := Option.some.inj hu
    exact h
  | cons name rest ih =>
    obtain ⟨entries, child, rfl, hlookup, hchild⟩ := get?_cons_eq_some hu
    cases h with
    | dir distinct names trees =>
      exact ih (trees _ ((lookup_eq_some_iff distinct).mp hlookup)) hchild

/-- All names along a place are names that an entry can have. By induction on the place, as the
entry that each of its names leads to is one of a well-formed directory. -/
private theorem WellFormed.isName_of_mem {t u : FileTree} (h : t.WellFormed) {place : List String}
    (hu : t.get? place = some u) {name : String} (hname : name ∈ place) : IsName name := by
  induction place generalizing t with
  | nil => exact absurd hname List.not_mem_nil
  | cons first rest ih =>
    obtain ⟨entries, child, rfl, hlookup, hchild⟩ := get?_cons_eq_some hu
    cases h with
    | dir distinct names trees =>
      have hmem := (lookup_eq_some_iff distinct).mp hlookup
      rcases List.mem_cons.mp hname with rfl | hname
      · exact names _ hmem
      · exact ih (trees _ hmem) hchild hname

end FileTree

/-! ### Walks -/

open FileTree FileSystem

/-- The source files among the entries that a walk comes to. -/
def sourcesOf (visited : List Entry) : List String :=
  visited.filterMap fun e => sourceOf? (.ok e)

/-- **The walk finds, below the directory at `path`, the places with the given property** and
nothing else, in their order. -/
def Finds (visited : List Entry) (path : String) (P : List String → Prop) : Prop :=
  ∃ places : List (List String), sourcesOf visited = places.map (pathBelow path) ∧
    (∀ place, place ∈ places ↔ P place) ∧
      places.Pairwise fun p q => nameBytes p < nameBytes q

namespace Finds

variable {path : String} {P Q : List String → Prop} {visited more : List Entry}

/-- A walk that comes to nothing finds all places if there are none. -/
theorem nil (h : ∀ place, ¬ P place) : Finds [] path P :=
  ⟨[], rfl, fun place => ⟨fun hmem => absurd hmem List.not_mem_nil, fun hP => absurd hP (h place)⟩,
    .nil⟩

theorem congr (h : Finds visited path P) (hPQ : ∀ place, P place ↔ Q place) :
    Finds visited path Q := by
  obtain ⟨places, hpaths, hmem, hordered⟩ := h
  exact ⟨places, hpaths, fun place => (hmem place).trans (hPQ place), hordered⟩

/-- One walk after another finds what both find, if the places are ordered: those of the first come
before those of the second. -/
theorem append (h : Finds visited path P) (h' : Finds more path Q)
    (hlt : ∀ p q, P p → Q q → nameBytes p < nameBytes q) :
    Finds (visited ++ more) path fun place => P place ∨ Q place := by
  obtain ⟨ps, hps, hmemP, hordP⟩ := h
  obtain ⟨qs, hqs, hmemQ, hordQ⟩ := h'
  refine ⟨ps ++ qs, ?_, fun place => ?_, List.pairwise_append.mpr ⟨hordP, hordQ, ?_⟩⟩
  · rw [sourcesOf, List.filterMap_append, List.map_append, ← hps, ← hqs]
    rfl
  · rw [List.mem_append, hmemP, hmemQ]
  · exact fun p hp q hq => hlt p q ((hmemP p).mp hp) ((hmemQ q).mp hq)

/-- What is found below an entry is found below its directory, behind the name of the entry. The
paths stay what they are (`pathBelow_cons`), and so does the order. -/
theorem push {name : String} (hpath : path ≠ "") (hname : IsName name) (hP : ¬ P [])
    (h : Finds visited (push path name) P) :
    Finds visited path fun place => ∃ rest, place = name :: rest ∧ P rest := by
  obtain ⟨places, hpaths, hmem, hordered⟩ := h
  refine ⟨places.map (name :: ·), ?_, fun place => ?_, ?_⟩
  · -- the directory itself is not among what is found, so the name is followed by another one
    rw [hpaths, List.map_map]
    refine List.map_congr_left fun rest hrest => ?_
    exact (pathBelow_cons hpath hname fun hnil => hP ((hmem []).mp (hnil ▸ hrest))).symm
  · simp only [List.mem_map, hmem]
    exact ⟨fun ⟨rest, hrest, heq⟩ => ⟨rest, heq.symm, hrest⟩,
      fun ⟨rest, heq, hrest⟩ => ⟨rest, hrest, heq.symm⟩⟩
  · exact List.pairwise_map.mpr (hordered.imp (nameBytes_cons_lt name))

end Finds

private theorem isWanted_file (path name : String) (depth : Nat) :
    Entry.isWanted ⟨path, name, depth, .file⟩ = true := by
  simp [Entry.isWanted, Entry.isSkippedDir]

/-- Below the directory that the walk starts from, the directories that are left out are those with
the names for it. -/
private theorem isWanted_dir (path name : String) {depth : Nat} (hdepth : depth ≠ 0) :
    Entry.isWanted ⟨path, name, depth, .dir⟩ = true ↔ name ∉ skippedDirs := by
  simp [Entry.isWanted, Entry.isSkippedDir, hdepth]

/-- What a part of a walk finds, at any depth but that of the directory that it starts from: of an
entry of a directory the source files below it, and of several entries those of each. -/
def WalkPart.Finds (visited : List Entry) : WalkPart → Prop
  | .tree path name depth t => ∀ base, path = push base name → base ≠ "" → depth ≠ 0 →
      IsName name → t.WellFormed → TypeErasure.Finds visited base (SourceVia (name, t))
  | .entries path depth es => path ≠ "" → depth ≠ 0 → (FileTree.dir es).WellFormed →
      es.Pairwise (fun a b => (Bytes.ofString a.1).toList ≤ (Bytes.ofString b.1).toList) →
      TypeErasure.Finds visited path fun place => ∃ entry ∈ es, SourceVia entry place

/-- Of a file the walk finds the file, if it is a source file. Whether it is one is seen from its
path as it is from its name (`isSourcePath_push`). -/
private theorem finds_file {base name : String} {depth : Nat} {content : Bytes} (hbase : base ≠ "")
    (hname : IsName name) :
    Finds [⟨push base name, name, depth, .file⟩] base (SourceVia (name, .file content)) := by
  have hsource := isSourcePath_push base hname
  by_cases hts : isSourcePath (push base name) = true
  · refine ⟨[[name]], ?_, fun place => ?_, List.pairwise_singleton _ _⟩
    · rw [List.map_singleton, pathBelow_singleton hbase]
      simp [sourcesOf, sourceOf?, hts]
    · simp [SourceVia, ← hsource, hts]
  · refine ⟨[], ?_, fun place => ?_, .nil⟩
    · simp [sourcesOf, sourceOf?, hts]
    · simp [SourceVia, ← hsource, hts]

/-- **A walk by the rules finds all source files, and nothing else, in the order of their places.**
The induction is on the walk, with one case for each of its rules; what is carried along is
`WalkPart.Finds`. -/
theorem Walks.finds {part : WalkPart} {visited : List Entry}
    (h : Walks Entry.isWanted part visited) : part.Finds visited := by
  induction h with
  | @refused path name depth t hkeep =>
    rintro base - - hdepth - -
    -- only directories are left out, and nothing below them counts
    cases t with
    | file content =>
      exact absurd (hkeep.symm.trans (isWanted_file path name depth)) Bool.false_ne_true
    | dir entries =>
      refine .nil fun place hvia => ?_
      rw [FileTree.kind, ← Bool.not_eq_true, isWanted_dir _ _ hdepth] at hkeep
      exact hkeep hvia.1
  | @file path name depth content _ =>
    rintro base rfl hbase - hname -
    exact finds_file hbase hname
  | @dir path name depth entries sorted below hkeep perm order _ ih =>
    rintro base rfl hbase hdepth hname hwell
    have hbelow := (ih (getLast?_push base hname).1 (by omega) (hwell.perm perm) order).congr
      fun place => hwell.sourceVia_iff_of_perm perm
    have hwanted := (isWanted_dir _ _ hdepth).mp hkeep
    -- the directory itself is no source file
    have hfirst : sourcesOf (⟨push base name, name, depth, .dir⟩ :: below) = sourcesOf below := by
      simp [sourcesOf, sourceOf?]
    obtain ⟨places, hpaths, hrest⟩ := (hbelow.push hbase hname not_sourceAt_nil).congr
      (Q := SourceVia (name, .dir entries)) fun place => (and_iff_right hwanted).symm
    exact ⟨places, hfirst.trans hpaths, hrest⟩
  | nil =>
    intro _ _ _ _
    refine .nil fun place hvia => ?_
    obtain ⟨entry, hmem, -⟩ := hvia
    exact absurd hmem List.not_mem_nil
  | @cons path name depth t rest visited more _ _ ihFirst ihOthers =>
    intro hpath hdepth hwell order
    cases hwell with
    | dir distinct names trees =>
      rw [List.map_cons, List.nodup_cons] at distinct
      rw [List.pairwise_cons] at order
      have hfirst := ihFirst path rfl hpath hdepth (names _ List.mem_cons_self)
        (trees _ List.mem_cons_self)
      have hothers := ihOthers hpath hdepth
        (.dir distinct.2 (fun e he => names e (List.mem_cons_of_mem _ he))
          fun e he => trees e (List.mem_cons_of_mem _ he)) order.2
      refine (hfirst.append hothers fun p q hp hq => ?_).congr fun place => ?_
      · -- the first names of the places differ
        obtain ⟨entry, hmem, hq⟩ := hq
        obtain ⟨p', rfl⟩ := hp.exists_eq_cons
        obtain ⟨q', rfl⟩ := hq.exists_eq_cons
        refine nameBytes_lt_of_le (fun heq => distinct.1 ?_) (order.1 entry hmem) p' q'
        exact List.mem_map.mpr ⟨entry, hmem, heq.symm⟩
      · simp only [List.mem_cons, exists_eq_or_imp]

/-- From the directory that it starts from, which is never left out, a walk finds the source files
below it. -/
private theorem Walks.finds_root {path name : String} {entries : List (String × FileTree)}
    {visited : List Entry} (hpath : path ≠ "") (hwell : (FileTree.dir entries).WellFormed)
    (h : Walks Entry.isWanted (.tree path name 0 (.dir entries)) visited) :
    Finds visited path (FileTree.dir entries).SourceAt := by
  cases h with
  | refused hkeep => simp [Entry.isWanted] at hkeep
  | @dir _ _ _ _ sorted below hkeep perm order walks =>
    obtain ⟨places, hpaths, hfound⟩ := (walks.finds hpath (by omega) (hwell.perm perm) order).congr
      fun place => hwell.sourceVia_iff_of_perm perm
    refine ⟨places, ?_, hfound⟩
    rw [← hpaths]
    simp [sourcesOf, sourceOf?]

/-! ### Inputs -/

namespace FileSystem

variable {fs : FileSystem}

/-- What a path leads to stands at some place, and the path is not empty. -/
private theorem exists_get?_of_find {path : String} {t : FileTree} (h : fs.find path = .ok t) :
    path ≠ "" ∧ ∃ place, fs.root.get? place = some t := by
  unfold find locate at h
  -- of the ways through the search one ends without a fault
  split at h
  · simp [Except.map] at h
  · rename_i start hstart
    split at h
    · simp [Except.map] at h
    · rename_i place _
      split at h
      · rename_i u hu
        obtain rfl := Except.ok.inj h
        refine ⟨?_, place, hu⟩
        rintro rfl
        simp [FileSystem.start] at hstart
      · simp [Except.map] at h

/-- The test for a directory holds if one is found. -/
theorem isDir_iff {path : String} :
    fs.isDir path = true ↔ ∃ entries, fs.find path = .ok (.dir entries) := by
  unfold isDir
  split
  · rename_i entries hfound
    exact ⟨fun _ => ⟨entries, hfound⟩, fun _ => rfl⟩
  · rename_i hother
    exact ⟨fun h => absurd h Bool.false_ne_true, fun ⟨entries, h⟩ => absurd h (hother entries)⟩

/-- **What an input stands for**: the source files below a directory, each once and in the order of
their places, or else the input itself. -/
inductive Contributes (fs : FileSystem) (input : String) : List String → Prop where
  | directory {entries : List (String × FileTree)} {places : List (List String)}
      (found : fs.find input = .ok (.dir entries))
      (complete : ∀ place, place ∈ places ↔ (FileTree.dir entries).SourceAt place)
      (ordered : places.Pairwise fun p q => nameBytes p < nameBytes q) :
      Contributes fs input (places.map (pathBelow input))
  | other (found : ∀ entries, fs.find input ≠ .ok (.dir entries)) : Contributes fs input [input]

/-- **What a list of inputs stands for**: what its inputs stand for, one after the other. -/
inductive Collects (fs : FileSystem) : List String → List String → Prop where
  | nil : Collects fs [] []
  | cons {input : String} {inputs files more : List String} (first : fs.Contributes input files)
      (rest : fs.Collects inputs more) : Collects fs (input :: inputs) (files ++ more)

/-- A walker that obeys the laws finds what an input stands for. For a directory this is
`Walks.finds_root`, as the walk that the laws promise is one by the rules. -/
theorem contributes_contribution {walk : Walker} (hwalk : walk.Laws) (h : fs.root.WellFormed)
    (input : String) : fs.Contributes input (Action.contribution walk fs input) := by
  unfold Action.contribution
  split
  · rename_i hdir
    obtain ⟨entries, hfound⟩ := isDir_iff.mp hdir
    obtain ⟨hinput, place, hplace⟩ := exists_get?_of_find hfound
    obtain ⟨visited, hwalks, heq⟩ := hwalk.preorder fs input Entry.isWanted entries hfound
    obtain ⟨places, hpaths, hmem, hordered⟩ := hwalks.finds_root hinput (h.get? hplace)
    have hfiles : (walk fs input Entry.isWanted).filterMap sourceOf? =
        places.map (pathBelow input) := by
      rw [heq, List.filterMap_map]
      exact hpaths
    rw [hfiles]
    exact .directory hfound hmem hordered
  · rename_i hdir
    exact .other fun entries hfound => hdir (isDir_iff.mpr ⟨entries, hfound⟩)

/-- What an input stands for is determined: strictly ordered places are known from what they are,
and an input is not both a directory and something else. -/
theorem Contributes.unique {input : String} {files others : List String}
    (h : fs.Contributes input files) (h' : fs.Contributes input others) : files = others := by
  cases h with
  | directory found complete ordered =>
    cases h' with
    | directory found' complete' ordered' =>
      obtain rfl : _ = _ := FileTree.dir.inj (Except.ok.inj (found.symm.trans found'))
      have hmem place := (complete place).trans (complete' place).symm
      rw [eq_of_pairwise ordered ordered' hmem]
    | other none => exact absurd found (none _)
  | other none =>
    cases h' with
    | directory found complete ordered => exact absurd found (none _)
    | other => rfl

/-- **Collecting gives what the inputs stand for**, and nothing else does. By induction on the
inputs in both directions, with `Contributes.unique` in the first. -/
private theorem collects_iff {walk : Walker} (hwalk : walk.Laws) (h : fs.root.WellFormed)
    {inputs files : List String} :
    fs.Collects inputs files ↔ inputs.flatMap (Action.contribution walk fs) = files := by
  constructor
  · intro hcollects
    induction hcollects with
    | nil => rfl
    | @cons input inputs files more first _ ih =>
      rw [List.flatMap_cons, ih, (contributes_contribution hwalk h input).unique first]
  · rintro rfl
    induction inputs with
    | nil => exact .nil
    | cons input inputs ih => exact .cons (contributes_contribution hwalk h input) ih

/-- No path is given twice for one input: the names can be read off it again, and two places of the
list differ. -/
private theorem Contributes.nodup {input : String} {files : List String}
    (h : fs.Contributes input files) (hwell : fs.root.WellFormed) : files.Nodup := by
  cases h with
  | @directory entries places found complete ordered =>
    obtain ⟨-, base, hbase⟩ := exists_get?_of_find found
    have hplace {place : List String} (hmem : place ∈ places) :
        place ≠ [] ∧ ∀ name ∈ place, '/' ∉ name.toList := by
      have hsource := (complete place).mp hmem
      refine ⟨fun hnil => not_sourceAt_nil (hnil ▸ hsource), fun name hname => ?_⟩
      obtain ⟨-, -, content, -, -, hfile, -⟩ := hsource
      exact ((hwell.get? hbase).isName_of_mem hfile hname).no_slash
    refine List.pairwise_map.mpr (ordered.imp_of_mem fun hp hq hlt heq => ?_)
    exact ne_of_nameBytes_lt hlt
      (pathBelow_inj (hplace hp).1 (hplace hq).1 (hplace hp).2 (hplace hq).2 heq)
  | other => exact List.pairwise_singleton _ _

end FileSystem

/-- **The files that inputs stand for.** With a walker that obeys the laws, collecting them always
succeeds, and gives for each directory in turn the source files below it in the order of their
places, and for any other input the input itself. No path is given twice for one input. -/
theorem Action.collect_eq_ok_iff {ε : Type} {walk : Walker} (hwalk : walk.Laws) (w : World)
    (h : w.files.root.WellFormed) (inputs : List String) :
    (∃ files, ((collect walk inputs : Action ε (List String)) w).1 = .ok files) ∧
      (∀ files, ((collect walk inputs : Action ε (List String)) w).1 = .ok files ↔
        w.files.Collects inputs files) ∧
      ∀ input files, w.files.Contributes input files → files.Nodup := by
  have hvalue : ((collect walk inputs : Action ε (List String)) w).1 =
      .ok (inputs.flatMap (contribution walk w.files)) := by
    rw [(looks_collect walk inputs).apply, value_collect]
  refine ⟨⟨_, hvalue⟩, fun files => ?_, fun input files hfiles => hfiles.nodup h⟩
  rw [hvalue, FileSystem.collects_iff hwalk h, Except.ok.injEq]

/-- A directory in which a file and a directory share a stem, with files that are left out. -/
def sampleTree : FileTree :=
  .dir [("b.ts", .file #[]), ("out", .dir [("d.ts", .file #[])]), (".ts", .file #[]),
    ("b", .dir [("c.ts", .file #[]), ("c.js", .file #[])])]

/-- A directory is well-formed if its names and its trees are. -/
theorem wellFormed_dir {entries : List (String × FileTree)}
    (distinct : (entries.map (·.1)).Nodup) (names : ∀ name ∈ entries.map (·.1), IsName name)
    (trees : ∀ t ∈ entries.map (·.2), t.WellFormed) : (FileTree.dir entries).WellFormed :=
  .dir distinct (fun _ hentry => names _ (List.mem_map_of_mem hentry))
    fun _ hentry => trees _ (List.mem_map_of_mem hentry)

/-- Its names are distinct and its trees well-formed. -/
private theorem wellFormed_sampleTree : sampleTree.WellFormed := by
  refine wellFormed_dir (by decide) (by decide) ?_
  simp only [List.map_cons, List.map_nil, List.forall_mem_cons, List.not_mem_nil, false_implies,
    implies_true, and_true]
  refine ⟨.file _, wellFormed_dir (by decide) (by decide) ?_, .file _,
    wellFormed_dir (by decide) (by decide) ?_⟩
  · simp [FileTree.WellFormed.file]
  · simp [FileTree.WellFormed.file]

/-- The source files of the directory, whose names are tested one by one. -/
private theorem mem_sampleTree_iff (place : List String) :
    place ∈ [["b", "c.ts"], ["b.ts"]] ↔ sampleTree.SourceAt place := by
  have hts {name : String} : (∃ stem, stem ≠ "" ∧ name = stem ++ ".ts") ↔
      extension? name = some "ts" := extension?_eq_ts_iff.symm
  have hyes : extension? "b.ts" = some "ts" ∧ extension? "c.ts" = some "ts" := by decide
  have hno : extension? ".ts" ≠ some "ts" ∧ extension? "c.js" ≠ some "ts" := by decide
  have hbelow (rest : List String) :
      (FileTree.dir [("c.ts", .file #[]), ("c.js", .file #[])]).SourceAt rest ↔
        rest = ["c.ts"] := by
    rw [sourceAt_dir_iff (by decide)]
    simp [SourceVia, hts, hyes, hno]
  rw [sampleTree, sourceAt_dir_iff (by decide)]
  simp [SourceVia, hts, hyes, hno, hbelow, mem_skippedDirs, or_comm]

/-- The directory comes before the file whose name goes on with a dot. -/
theorem Action.collect_eq_ok_iff_sample :
    let fs : FileSystem := { root := .dir [("a", sampleTree)] }
    Walker.byName.Laws ∧ fs.root.WellFormed ∧
      ((collect Walker.byName ["a"] : Action AccessFault (List String)) { files := fs }).1 =
        .ok ["a/b/c.ts", "a/b.ts"] := by
  intro fs
  have hwell : fs.root.WellFormed := by
    refine wellFormed_dir (by decide) (by decide) ?_
    simpa using wellFormed_sampleTree
  have hcollects : fs.Collects ["a"] ([["b", "c.ts"], ["b.ts"]].map (pathBelow "a") ++ []) :=
    .cons (.directory (by rfl) mem_sampleTree_iff (by decide +kernel)) .nil
  have hpaths : [["b", "c.ts"], ["b.ts"]].map (pathBelow "a") ++ [] = ["a/b/c.ts", "a/b.ts"] := by
    decide +kernel
  rw [hpaths] at hcollects
  exact ⟨Walker.laws_byName, hwell,
    ((collect_eq_ok_iff Walker.laws_byName { files := fs } hwell ["a"]).2.1 _).mpr hcollects⟩

end TypeErasure
