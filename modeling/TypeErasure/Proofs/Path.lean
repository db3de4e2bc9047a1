import TypeErasure.Sources

/-!
# Names and paths

A path is divided at its slashes, so a name that holds none is read off a path that it was appended
to (`FileSystem.fileName?_push`). From this it is seen which paths are those of source files
(`isSourcePath_push`), and that two places below a directory have different paths
(`FileSystem.pathBelow_inj`).

Names are sorted as texts, which is the order of their bytes (`Bytes.ofString_lt`): the encoding of
a character neither begins that of another nor changes their order.
-/

namespace TypeErasure

/-! ### The order of names -/

/-- **One text comes before the other and does not begin it**: they differ at some byte, and there
the first one has the lesser byte. -/
inductive PartsBelow : List Byte → List Byte → Prop where
  | here {a b : Byte} {x y : List Byte} (h : a < b) : PartsBelow (a :: x) (b :: y)
  | later {a : Byte} {x y : List Byte} (h : PartsBelow x y) : PartsBelow (a :: x) (a :: y)

namespace PartsBelow

/-- What follows makes no difference, as the texts are told apart before it. -/
private theorem append_lt {x y : List Byte} (h : PartsBelow x y) (u v : List Byte) :
    x ++ u < y ++ v := by
  induction h with
  | here h => exact List.cons_lt_cons_iff.mpr (.inl h)
  | later _ ih => exact List.cons_lt_cons_iff.mpr (.inr ⟨rfl, ih⟩)

theorem head {m n : Nat} {x y : List Byte} (h : m < n) (hn : n < 256) :
    PartsBelow (UInt8.ofNat m :: x) (UInt8.ofNat n :: y) := by
  refine .here ?_
  rw [UInt8.lt_iff_toNat_lt, UInt8.toNat_ofNat', UInt8.toNat_ofNat']
  omega

/-- Equal first bytes leave the order to what follows them. -/
theorem cons {m n : Nat} {x y : List Byte} (h : m ≤ n) (hn : n < 256)
    (hsame : m = n → PartsBelow x y) : PartsBelow (UInt8.ofNat m :: x) (UInt8.ofNat n :: y) := by
  rcases Nat.lt_or_eq_of_le h with hlt | rfl
  · exact head hlt hn
  · exact .later (hsame rfl)

end PartsBelow

/-- No character has a number beyond that of the last plane. -/
private theorem toNat_val_lt (c : Char) : c.val.toNat < 1114112 := by
  have h := c.valid
  simp only [UInt32.isValidChar, Nat.isValidChar] at h
  omega

/-- **The encoding keeps the order of characters.** The first byte tells the length of the encoding
and orders characters of different lengths; those of one length are ordered as numbers of as many
digits. -/
theorem parts_utf8EncodeChar {c d : Char} (h : c < d) :
    PartsBelow (String.utf8EncodeChar c) (String.utf8EncodeChar d) := by
  have hlt : c.val.toNat < d.val.toNat := h
  have hd := toNat_val_lt d
  unfold String.utf8EncodeChar
  dsimp only
  generalize c.val.toNat = m at *
  generalize d.val.toNat = n at *
  -- the cases are the lengths of the two encodings, where that of `c` is not the longer one
  by_cases hm₁ : m ≤ 127
  · -- one byte
    rw [if_pos hm₁]
    split
    · exact .head hlt (by omega)
    · split
      · exact .head (by omega) (by omega)
      · split
        · exact .head (by omega) (by omega)
        · exact .head (by omega) (by omega)
  · have hn₁ : ¬ n ≤ 127 := by omega
    rw [if_neg hm₁, if_neg hn₁]
    by_cases hm₂ : m ≤ 2047
    · -- two bytes, of which the first can be the same
      rw [if_pos hm₂]
      split
      · exact .cons (by omega) (by omega) fun _ => .head (by omega) (by omega)
      · split
        · exact .head (by omega) (by omega)
        · exact .head (by omega) (by omega)
    · have hn₂ : ¬ n ≤ 2047 := by omega
      rw [if_neg hm₂, if_neg hn₂]
      by_cases hm₃ : m ≤ 65535
      · -- three bytes
        rw [if_pos hm₃]
        split
        · exact .cons (by omega) (by omega) fun _ =>
            .cons (by omega) (by omega) fun _ => .head (by omega) (by omega)
        · exact .head (by omega) (by omega)
      · have hn₃ : ¬ n ≤ 65535 := by omega
        rw [if_neg hm₃, if_neg hn₃]
        -- four bytes: two characters differ in one of their four digits
        exact .cons (by omega) (by omega) fun _ => .cons (by omega) (by omega) fun _ =>
          .cons (by omega) (by omega) fun _ => .head (by omega) (by omega)

/-- The bytes of a text are those of its characters. -/
private theorem Bytes.toList_ofString (s : String) :
    (ofString s).toList = s.toList.flatMap String.utf8EncodeChar := by
  rw [ofString, String.toUTF8_eq_toByteArray, ← String.utf8Encode_toList, List.utf8Encode,
    List.data_toByteArray, List.toList_toArray]

/-- **Texts are encoded in order**, character by character. The induction is on the first one; where
the characters differ, their encodings decide (`parts_utf8EncodeChar`), and equal ones are passed
over. -/
private theorem flatMap_utf8EncodeChar_lt {x y : List Char} (h : x < y) :
    x.flatMap String.utf8EncodeChar < y.flatMap String.utf8EncodeChar := by
  induction x generalizing y with
  | nil =>
    cases y with
    | nil => exact absurd h (List.not_lt_nil _)
    | cons d y =>
      -- the empty text begins every other one
      rw [List.flatMap_nil, List.flatMap_cons]
      obtain ⟨a, z, hd⟩ := List.exists_cons_of_ne_nil (String.utf8EncodeChar_ne_nil (c := d))
      rw [hd]
      exact List.nil_lt_cons a _
  | cons c x ih =>
    cases y with
    | nil => exact absurd h (List.not_lt_nil _)
    | cons d y =>
      rw [List.flatMap_cons, List.flatMap_cons]
      rcases List.cons_lt_cons_iff.mp h with hlt | ⟨rfl, hlt⟩
      · exact (parts_utf8EncodeChar hlt).append_lt _ _
      · exact List.append_left_lt (ih hlt)

/-- **Texts are ordered as their bytes are.** -/
theorem Bytes.ofString_lt {s t : String} (h : s < t) :
    (ofString s).toList < (ofString t).toList := by
  rw [toList_ofString, toList_ofString]
  exact flatMap_utf8EncodeChar_lt h

/-! ### Names in paths -/

/-- **A name that an entry of a directory can have**: it is not empty, stands neither for the
directory itself nor for the one above, and holds no slash. -/
structure IsName (name : String) : Prop where
  ne_empty : name ≠ ""
  ne_dot : name ≠ "."
  ne_dots : name ≠ ".."
  no_slash : '/' ∉ name.toList

instance (name : String) : Decidable (IsName name) :=
  decidable_of_iff (name ≠ "" ∧ name ≠ "." ∧ name ≠ ".." ∧ '/' ∉ name.toList)
    ⟨fun ⟨h₁, h₂, h₃, h₄⟩ => ⟨h₁, h₂, h₃, h₄⟩, fun ⟨h₁, h₂, h₃, h₄⟩ => ⟨h₁, h₂, h₃, h₄⟩⟩

namespace FileSystem

/-- A slash divides a path: its parts are those before the slash and those behind it. -/
private theorem parts_append_slash (dir rest : String) :
    parts (dir ++ "/" ++ rest) = parts dir ++ parts rest := by
  have hchars : (dir ++ "/" ++ rest).toList = dir.toList ++ '/' :: rest.toList := by
    rw [String.toList_append, String.toList_append, List.append_assoc]
    rfl
  have hslash : ('/' == '/') = true := rfl
  rw [parts, hchars, List.splitOn, List.splitOnP_append_cons (p := (· == '/')) _ _ hslash,
    List.map_append]
  rfl

/-- A text without slashes is a single part. -/
private theorem parts_of_no_slash {name : String} (h : '/' ∉ name.toList) :
    parts name = [name] := by
  rw [parts, List.splitOn_eq_singleton h, List.map_singleton, String.ofList_toList]

/-- The last part of a path is its name, if it is one that an entry can have: parts that are passed
over are no such names. -/
private theorem fileName?_of_parts {path name : String} {before : List String}
    (hparts : parts path = before ++ [name]) (hname : IsName name) :
    fileName? path = some name := by
  have hkept : [name].filter (fun part => part != "" && part != ".") = [name] := by
    simp [hname.ne_empty, hname.ne_dot]
  rw [fileName?, hparts, List.filter_append, hkept, List.getLast?_concat, Option.filter_some,
    if_pos (by simp [hname.ne_dots])]

/-- A path that ends with a name, alone or behind a slash, has this name. -/
theorem fileName?_of_last {path name : String} (hname : IsName name)
    (hpath : path = name ∨ ∃ dir, path = dir ++ "/" ++ name) : fileName? path = some name := by
  have hsingle := parts_of_no_slash hname.no_slash
  rcases hpath with rfl | ⟨dir, rfl⟩
  · exact fileName?_of_parts (hsingle.trans (List.nil_append _).symm) hname
  · exact fileName?_of_parts (by rw [parts_append_slash, hsingle]) hname

/-- The three ways to append a name to a path. Nothing stands in front of it, or a path that ends
with a slash, or one that a slash must be put behind. -/
private theorem push_cases (path name : String) :
    (path = "" ∧ push path name = name) ∨
      (∃ dir, path = dir ++ "/" ∧ push path name = dir ++ "/" ++ name) ∨
        (path ≠ "" ∧ path.toList.getLast? ≠ some '/' ∧ push path name = path ++ "/" ++ name) := by
  unfold push
  split
  · -- an empty path
    rename_i hlast
    rw [List.getLast?_eq_none_iff] at hlast
    exact .inl ⟨String.toList_inj.mp hlast, rfl⟩
  · -- a path with a slash at its end
    rename_i hlast
    obtain ⟨dir, hdir⟩ := List.getLast?_eq_some_iff.mp hlast
    have hpath : path = String.ofList dir ++ "/" := by
      rw [← String.toList_inj, String.toList_append, String.toList_ofList, hdir]
      rfl
    exact .inr (.inl ⟨String.ofList dir, hpath, by rw [← hpath]⟩)
  · -- any other path
    rename_i last hslash hlast
    refine .inr (.inr ⟨?_, ?_, rfl⟩)
    · rintro rfl
      simp at hlast
    · rw [hlast]
      exact fun h => hslash (Option.some.inj h)

/-- A name that is appended to a path is the name of the result, in each of the three ways. -/
theorem fileName?_push {path name : String} (hname : IsName name) :
    fileName? (push path name) = some name := by
  refine fileName?_of_last hname ?_
  rcases push_cases path name with ⟨-, h⟩ | ⟨dir, -, h⟩ | ⟨-, -, h⟩
  · exact .inl h
  · exact .inr ⟨dir, h⟩
  · exact .inr ⟨path, h⟩

/-- **The extension of a name is `ts`** if the name ends with `.ts` behind at least one character,
and only then. Seen from its end, the name is divided at the first dot. -/
theorem extension?_eq_ts_iff {name : String} :
    extension? name = some "ts" ↔ ∃ stem, stem ≠ "" ∧ name = stem ++ ".ts" := by
  have hext : ".ts".toList = ['.', 't', 's'] := rfl
  constructor
  · intro h
    unfold extension? at h
    split at h
    · simp at h
    · simp at h
    · rename_i dot first stem hdrop
      -- what is taken is `ts`, and what is dropped starts with the dot
      have htake : name.toList.reverse.takeWhile (· != '.') = ['s', 't'] := by
        have hchars := congrArg String.toList (Option.some.inj h)
        rw [String.toList_ofList] at hchars
        exact List.reverse_eq_iff.mp hchars
      have hdot : dot = '.' := by
        have hhead := List.head?_dropWhile_not (· != '.') name.toList.reverse
        rw [hdrop] at hhead
        simpa using hhead
      have hname := List.takeWhile_append_dropWhile (p := (· != '.')) (l := name.toList.reverse)
      rw [htake, hdrop, hdot, eq_comm, List.reverse_eq_iff] at hname
      refine ⟨String.ofList (first :: stem).reverse, fun hempty => ?_, String.toList_inj.mp ?_⟩
      · simpa using congrArg String.toList hempty
      · rw [hname, String.toList_append, String.toList_ofList, hext]
        simp
  · -- the stem holds a character, so the dot is not the first one of the name
    rintro ⟨stem, hstem, rfl⟩
    obtain ⟨last, before, hchars⟩ : ∃ last before, stem.toList.reverse = last :: before := by
      refine List.exists_cons_of_ne_nil fun hnil => hstem (String.toList_inj.mp ?_)
      exact List.reverse_eq_nil_iff.mp hnil
    unfold extension?
    rw [String.toList_append, hext, List.reverse_append, hchars]
    rfl

end FileSystem

/-- **The path of an entry is that of a source file** if its name ends with the extension `.ts`
behind at least one character. -/
theorem isSourcePath_push (path : String) {name : String} (hname : IsName name) :
    isSourcePath (FileSystem.push path name) = true ↔ ∃ stem, stem ≠ "" ∧ name = stem ++ ".ts" := by
  rw [isSourcePath, FileSystem.fileName?_push hname, Option.bind_some, beq_iff_eq,
    FileSystem.extension?_eq_ts_iff]

/-! ### Paths of places -/

namespace FileSystem

/-- **The path of a place below a directory**, given the path of the directory: its names follow,
divided by slashes. -/
def pathBelow (path : String) (place : List String) : String :=
  path ++ (if path.toList.getLast? = some '/' then "" else "/") ++ "/".intercalate place

private theorem pathBelow_of_slash {path : String} (h : path.toList.getLast? = some '/')
    (place : List String) : pathBelow path place = path ++ "/".intercalate place := by
  rw [pathBelow, if_pos h, String.append_empty]

private theorem pathBelow_of_not_slash {path : String} (h : path.toList.getLast? ≠ some '/')
    (place : List String) : pathBelow path place = path ++ "/" ++ "/".intercalate place := by
  rw [pathBelow, if_neg h]

/-- A single name below a directory is appended to its path. One case for each way to append it. -/
theorem pathBelow_singleton {path : String} (hpath : path ≠ "") (name : String) :
    pathBelow path [name] = push path name := by
  rcases push_cases path name with ⟨h, -⟩ | ⟨dir, rfl, h⟩ | ⟨-, hlast, h⟩
  · exact absurd h hpath
  · rw [pathBelow_of_slash (by simp), h, String.intercalate_singleton]
  · rw [pathBelow_of_not_slash hlast, h, String.intercalate_singleton]

/-- The path of an entry neither is empty nor ends with a slash: it ends with the last character of
the name. -/
theorem getLast?_push (path : String) {name : String} (hname : IsName name) :
    push path name ≠ "" ∧ (push path name).toList.getLast? ≠ some '/' := by
  obtain ⟨before, hbefore⟩ : ∃ before, push path name = before ++ name := by
    rcases push_cases path name with ⟨-, h⟩ | ⟨dir, -, h⟩ | ⟨-, -, h⟩
    · exact ⟨"", by rw [h, String.empty_append]⟩
    · exact ⟨_, h⟩
    · exact ⟨_, h⟩
  obtain ⟨last, hlast⟩ : ∃ last, name.toList.getLast? = some last := by
    refine Option.ne_none_iff_exists'.mp fun hnone => hname.ne_empty (String.toList_inj.mp ?_)
    exact List.getLast?_eq_none_iff.mp hnone
  have hpush : (push path name).toList.getLast? = some last := by
    rw [hbefore, String.toList_append, List.getLast?_append, hlast]
    rfl
  -- a path with a last character is not empty
  refine ⟨?_, ?_⟩
  · rintro hempty
    simp [hempty] at hpush
  · rw [hpush]
    rintro hslash
    obtain rfl := Option.some.inj hslash
    exact hname.no_slash (List.mem_of_getLast? hlast)

/-- Step by step, the path of a place is made by appending one name after the other. The path of an
entry does not end with a slash, so that one is put behind it both ways. -/
theorem pathBelow_cons {path name : String} (hpath : path ≠ "") (hname : IsName name)
    {rest : List String} (hrest : rest ≠ []) :
    pathBelow path (name :: rest) = pathBelow (push path name) rest := by
  obtain ⟨next, more, rfl⟩ := List.exists_cons_of_ne_nil hrest
  obtain ⟨-, hlast⟩ := getLast?_push path hname
  rw [pathBelow_of_not_slash hlast, ← pathBelow_singleton hpath, pathBelow, pathBelow,
    String.intercalate_cons_cons, String.intercalate_singleton]
  simp only [String.append_assoc]

/-- Names without slashes can be read off a path, so two places below a directory have different
paths. -/
theorem pathBelow_inj {path : String} {p q : List String} (hp : p ≠ []) (hq : q ≠ [])
    (hp' : ∀ name ∈ p, '/' ∉ name.toList) (hq' : ∀ name ∈ q, '/' ∉ name.toList)
    (h : pathBelow path p = pathBelow path q) : p = q := by
  -- splitting at the slashes gives the names back
  have hsplit {names : List String} (hne : names ≠ [])
      (hnames : ∀ name ∈ names, '/' ∉ name.toList) :
      ("/".intercalate names).toList.splitOn '/' = names.map String.toList := by
    rw [String.toList_intercalate]
    exact List.splitOn_intercalate '/' (by simpa using hnames) (by simpa using hne)
  have htail : "/".intercalate p = "/".intercalate q := (String.append_right_inj _).mp h
  have hchars : p.map String.toList = q.map String.toList := by
    rw [← hsplit hp hp', ← hsplit hq hq', htail]
  exact List.map_inj_right (fun _ _ => String.toList_inj.mp) |>.mp hchars

end FileSystem

end TypeErasure
