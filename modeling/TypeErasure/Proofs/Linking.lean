import TypeErasure.Program
import TypeErasure.Proofs.Command
import TypeErasure.Proofs.Heading.Run
import TypeErasure.Proofs.Path

/-!
# Header lines of linked files

The line that is put in front of a linked file is a heading, as long as the name of the file holds
neither a slash nor a `<`. What was shown of headings is applied here to texts with such a line and
to the command that links files.

Main statement: `erase_headerLine`. Its hypothesis on the first word of the text cannot be left out:
without a header line an `as` at the start of a text has no operand, and behind one it has.
-/

namespace TypeErasure

/-! ### ASCII characters of encoded texts -/

/-- An ASCII byte in the encoding of a character is all of it. One case for each length of the
encoding and each of its bytes. -/
private theorem toNat_of_mem_utf8EncodeChar {c : Char} {d : Byte} (h : d ∈ String.utf8EncodeChar c)
    (hd : d.toNat < 128) : d.toNat = c.toNat := by
  have hval : c.val.toNat = c.toNat := rfl
  rw [String.utf8EncodeChar] at h
  simp only [hval] at h
  -- all bytes of a longer encoding are above 127
  repeat' split at h
  all_goals
    simp only [List.mem_cons, List.not_mem_nil, or_false] at h
    rcases h with rfl | rfl | rfl | rfl <;>
      simp only [UInt8.toNat_ofNat'] at hd ⊢ <;> omega

namespace Bytes

/-- The ASCII characters that are found in an encoded text are characters of the text. The byte
stands in the encoding of some character, and is all of it. -/
private theorem mem_toList_of_isAt {s : String} {k : Nat} {ch : Char} (hch : ch.toNat < 128)
    (h : (ofString s).isAt k ch = true) : ch ∈ s.toList := by
  rw [isAt, Option.any_eq_true] at h
  obtain ⟨d, hd, his⟩ := h
  rw [Byte.is, beq_iff_eq] at his
  -- a text is encoded character by character
  have hmem : d ∈ s.toList.flatMap String.utf8EncodeChar := by
    have hdata : (ofString s).toList = s.toList.flatMap String.utf8EncodeChar := by
      rw [ofString, String.toUTF8, ← String.utf8Encode_toList]
      simp [List.utf8Encode]
    rw [← hdata]
    exact Array.mem_toList_iff.mpr (Array.mem_of_getElem? hd)
  obtain ⟨c, hc, hdc⟩ := List.mem_flatMap.mp hmem
  have hnat := toNat_of_mem_utf8EncodeChar hdc (by omega)
  obtain rfl : c = ch := Char.toNat_inj.mp (by omega)
  exact hc

private theorem ofString_append (s t : String) : ofString (s ++ t) = ofString s ++ ofString t := by
  rw [ofString, String.toUTF8, String.toByteArray_append]
  exact ByteArray.data_append

end Bytes

/-! ### Header lines are headings -/

/-- A comment in a line of its own is a heading, if it holds neither a slash nor a `<`. Each byte of
the line is one of the opening mark, of the name or of the closing mark; the marks are looked at
byte by byte, and of the name the hypotheses are used. -/
private theorem heading_of_comment {name : Bytes} (hslash : ∀ k, name.isAt k '/' = false)
    (hangle : ∀ k, name.isAt k '<' = false) :
    Heading (Bytes.ofString "/* " ++ name ++ Bytes.ofString " */\n") := by
  have hopen : (Bytes.ofString "/* ").size = 3 := by decide
  have hclose : (Bytes.ofString " */\n").size = 4 := by decide
  have hfront : (Bytes.ofString "/* " ++ name).size = 3 + name.size := by
    rw [Array.size_append, hopen]
  -- a byte of the line is one of the opening mark, of the name, or of the closing mark
  have hfst {k : Nat} (hk : k < 3) (ch : Char) :
      (Bytes.ofString "/* " ++ name ++ Bytes.ofString " */\n").isAt k ch =
        (Bytes.ofString "/* ").isAt k ch := by
    rw [Array.append_assoc]
    exact Bytes.isAt_congr (Array.getElem?_append_left (by omega)) ch
  have hmid {k : Nat} (hk : k < name.size) (ch : Char) :
      (Bytes.ofString "/* " ++ name ++ Bytes.ofString " */\n").isAt (3 + k) ch =
        name.isAt k ch := by
    rw [Array.append_assoc, ← hopen, Bytes.isAt_append_right]
    exact Bytes.isAt_congr (Array.getElem?_append_left hk) ch
  have hlast (k : Nat) (ch : Char) :
      (Bytes.ofString "/* " ++ name ++ Bytes.ofString " */\n").isAt (3 + name.size + k) ch =
        (Bytes.ofString " */\n").isAt k ch := by
    rw [← hfront, Bytes.isAt_append_right]
  have hsize : (Bytes.ofString "/* " ++ name ++ Bytes.ofString " */\n").size =
      3 + name.size + 4 := by
    rw [Array.size_append, hfront, hclose]
  have hcases (k : Nat) :
      k < 3 ∨ (∃ j, j < name.size ∧ k = 3 + j) ∨ ∃ j, k = 3 + name.size + j := by
    by_cases hk : k < 3
    · exact .inl hk
    · by_cases hname : k < 3 + name.size
      · exact .inr (.inl ⟨k - 3, by omega, by omega⟩)
      · exact .inr (.inr ⟨k - (3 + name.size), by omega⟩)
  have hopenSlash : ∀ k < 3, (Bytes.ofString "/* ").isAt k '/' = true → k = 0 := by decide
  have hopenAngle : ∀ k < 3, (Bytes.ofString "/* ").isAt k '<' = false := by decide
  have hcloseSlash : ∀ k < 4, (Bytes.ofString " */\n").isAt k '/' = true → k = 2 := by decide
  have hcloseAngle : ∀ k < 4, (Bytes.ofString " */\n").isAt k '<' = false := by decide
  constructor
  case long => omega
  case fst => exact (hfst (by decide) '/').trans (by decide)
  case snd => exact (hfst (by decide) '*').trans (by decide)
  case star =>
    rw [hsize]
    exact (hlast 1 '*').trans (by decide)
  case slash =>
    rw [hsize]
    exact (hlast 2 '/').trans (by decide)
  case line =>
    rw [hsize]
    exact (hlast 3 '\n').trans (by decide)
  -- a slash stands at the start or before the line break, as the name holds none
  case slashes =>
    intro k hk
    rcases hcases k with hlt | ⟨j, hj, rfl⟩ | ⟨j, rfl⟩
    · rw [hfst hlt] at hk
      exact .inl (hopenSlash k hlt hk)
    · rw [hmid hj, hslash] at hk
      exact absurd hk (by decide)
    · rw [hlast] at hk
      have hj := Bytes.lt_size_of_isAt hk
      have := hcloseSlash j (by omega) hk
      omega
  -- and there is no angle bracket, neither in the marks nor in the name
  case angle =>
    intro k
    rcases hcases k with hlt | ⟨j, hj, rfl⟩ | ⟨j, rfl⟩
    · rw [hfst hlt]
      exact hopenAngle k hlt
    · rw [hmid hj, hangle]
    · rw [hlast]
      by_cases hj : j < 4
      · exact hcloseAngle j hj
      · exact Bytes.satAt_eq_false_of_size_le (by omega)

/-- The line with a file name is a heading: `heading_of_comment` for the encoded name. -/
private theorem heading_of_name {name : String} (hname : ∀ ch ∈ name.toList, ch ≠ '/' ∧ ch ≠ '<') :
    Heading (Bytes.ofString s!"/* {name} */\n") := by
  have hbytes : Bytes.ofString s!"/* {name} */\n" =
      Bytes.ofString "/* " ++ Bytes.ofString name ++ Bytes.ofString " */\n" := by
    rw [← Bytes.ofString_append, ← Bytes.ofString_append]
    rfl
  -- the two signs are ASCII, so no other character has their bytes in its encoding
  have hnot {ch : Char} (hch : ch.toNat < 128) (hmem : ch ∉ name.toList) (k : Nat) :
      (Bytes.ofString name).isAt k ch = false := by
    rw [← Bool.not_eq_true]
    exact fun h => hmem (Bytes.mem_toList_of_isAt hch h)
  rw [hbytes]
  exact heading_of_comment (hnot (by decide) fun h => (hname '/' h).1 rfl)
    (hnot (by decide) fun h => (hname '<' h).2 rfl)

/-! ### The first word -/

/-- The first word of a text: what stands between its first ink and the next whitespace. -/
def Bytes.firstWord (b : Bytes) : Bytes :=
  b.slice (b.skipSpace 0) (b.skipWhile (fun c => !c.isSpace) (b.skipSpace 0))

private theorem Byte.isSpace_of_isBlank {c : Byte} (h : c.isBlank = true) : c.isSpace = true := by
  simp only [isBlank, isSpace, among, List.any_cons, List.any_nil, Bool.or_eq_true] at h ⊢
  tauto

/-- A cast without operand is the first word of a text: only whitespace stands before it, and
whitespace ends it. A text that starts with another word therefore has none. -/
private theorem asFollowsInk_of_firstWord {s : Bytes} (h : s.firstWord ≠ Bytes.ofString "as")
    (i : Nat) : AsFollowsInk s i := by
  intro hnone
  rw [← Bool.not_eq_true, Bool.and_eq_true, Bool.and_eq_true]
  rintro ⟨⟨hblank, hword⟩, hspace⟩
  have hhas := hasAt_of_keywordAt hword
  have hsize : (Bytes.ofString "as").size = 2 := by decide
  have hletter {k : Nat} (hk : k < 2) : s.satAt (i + 1 + k) Byte.isLetter = true :=
    Bytes.satAt_of_hasAt hhas (by omega) (by decide)
  have hink {k : Nat} (hk : k < 2) : s.satAt (i + 1 + k) Byte.isSpace = false :=
    Bytes.satAt_eq_false (hletter hk) (Byte.excludes_isSpace rfl)
  -- all that stands before the word is whitespace
  have hstart : s.skipSpace 0 = i + 1 := by
    refine Bytes.skipWhile_eq (Nat.zero_le _) (fun k _ hk => ?_) (hink Nat.zero_lt_two)
    have hlt := Bytes.lt_size_of_satAt hblank
    obtain hbefore | rfl : k < i ∨ k = i := by omega
    · have hspaced := lastBelow_eq_none_iff.mp hnone k hbefore
      rwa [Bytes.satAt_not (by omega), Bool.not_eq_false'] at hspaced
    · exact Bytes.satAt_mono hblank fun c hc => Byte.isSpace_of_isBlank hc
  -- and the word ends with the whitespace behind it
  have hstop : s.skipWhile (fun c => !c.isSpace) (i + 1) = i + 3 := by
    refine Bytes.skipWhile_eq (by omega) (fun k hk hlt => ?_) ?_
    · rw [show k = i + 1 + (k - (i + 1)) by omega]
      exact Bytes.satAt_mono (hletter (by omega)) fun c hc => by
        rw [Byte.excludes_isSpace (p := Byte.isLetter) rfl c hc]
        rfl
    · rw [Bytes.satAt_not (Bytes.lt_size_of_satAt hspace), hspace]
      rfl
  rw [Bytes.hasAt, hsize, beq_iff_eq] at hhas
  exact h (by rw [Bytes.firstWord, hstart, hstop, ← hhas])

/-! ### Linking -/

section Single

variable {tools : Tools} {fs : FileSystem} {inputs : List String} {path name : String} {s : Bytes}

/-- What is prepared of a single file: its text, behind the line with its name if headers are asked
for, is erased by the rules of the configuration. -/
private theorem value_prepare_single (hinputs : stripFiles tools fs inputs = [path])
    (hread : fs.readText path = .ok s) (hlast : FileSystem.fileName? path = some name)
    (config : Option String) (header : Bool) :
    (prepare tools inputs config header).value fs =
      ((loadRules tools.readRules config).value fs).bind fun rules =>
        (eraseText rules
          ((if header then Bytes.ofString s!"/* {name} */\n" else #[]) ++ s)).value fs := by
  have hname : FileSystem.lastName path = name := by
    rw [FileSystem.lastName, hlast, Option.getD_some]
  have hlink : (link header [path]).value fs =
      .ok ((if header then Bytes.ofString s!"/* {name} */\n" else #[]) ++ s) := by
    have hlinks : LinksTo fs header [path] _ := .cons hread .nil
    rw [Array.append_empty, hname] at hlinks
    exact value_link_eq_ok_iff.mpr hlinks
  rw [value_prepare, hinputs, hlink]
  rfl

end Single

/-- **A header line stays in front of the erased text, and changes nothing about it**, if its name
holds neither a slash nor a `<` and the text does not start with the word `as`.

A single file that is linked with its header line therefore comes out as this line, followed by what
the file comes out as without it. Both ways fail alike, and what is written to an output file is
what would have been printed. -/
theorem erase_headerLine (name : String) (hname : ∀ ch ∈ name.toList, ch ≠ '/' ∧ ch ≠ '<')
    (s : Bytes) (hword : s.firstWord ≠ Bytes.ofString "as") :
    (∀ r : Rules, ∃ e e', erase r s = .ok e ∧
      erase r (Bytes.ofString s!"/* {name} */\n" ++ s) = .ok e' ∧
        e'.output = Bytes.ofString s!"/* {name} */\n" ++ e.output) ∧
    ∀ (tools : Tools) (fs : FileSystem) (inputs : List String) (path : String)
      (config : Option String),
      ((Action.collect tools.walk inputs : Action CommandError (List String))
        { files := fs }).1 = .ok [path] →
      name ≠ "" → name ≠ "." → name ≠ ".." → (path = name ∨ ∃ dir, path = dir ++ "/" ++ name) →
      fs.readText path = .ok s →
      let plain := runStrip tools inputs none config false { files := fs }
      let headed := runStrip tools inputs none config true { files := fs }
      headed.1 = plain.1 ∧ headed.2.files = plain.2.files ∧
        (∀ status, plain.1 = .ok status →
          headed.2.stdout = Bytes.ofString s!"/* {name} */\n" ++ plain.2.stdout) ∧
        ∀ target status w,
          runStrip tools inputs (some target) config true { files := fs } = (.ok status, w) →
          plain.1 = .ok status ∧ ∃ place, fs.writePlace target = .ok place ∧
            w.files.root.get? place =
              some (.file (Bytes.ofString s!"/* {name} */\n" ++ plain.2.stdout)) := by
  have herase (r : Rules) :=
    (heading_of_name hname).erase_append r (asFollowsInk_of_firstWord hword)
  refine ⟨herase, ?_⟩
  intro tools fs inputs path config hcollect hempty hdot hdots hpath hread plain headed
  have hinputs : stripFiles tools fs inputs = [path] :=
    Except.ok.inj ((Action.value_collect (ε := CommandError) _ _ _).symm.trans hcollect)
  have hlast := FileSystem.fileName?_of_last
    ⟨hempty, hdot, hdots, fun hslash => (hname '/' hslash).1 rfl⟩ hpath
  have hvalue := value_prepare_single hinputs hread hlast config
  cases hrules : (loadRules tools.readRules config).value fs with
  | error e =>
    -- the configuration is read first, so both ways fail with it
    have hfail (header : Bool) : (prepare tools inputs config header).value fs = .error e := by
      rw [hvalue, hrules]
      rfl
    have hrun (output : Option String) (header : Bool) :
        runStrip tools inputs output config header { files := fs } =
          (.error e, preparedWorld tools fs inputs config header) := by
      rw [runStrip_apply, hfail]
    have hplain : plain = _ := hrun none false
    have hheaded : headed = _ := hrun none true
    rw [hplain, hheaded]
    refine ⟨rfl, rfl, fun status h => by simp at h, fun target status w h => ?_⟩
    rw [hrun] at h
    simp at h
  | ok rules =>
    -- both texts are erased, the second one behind its line
    obtain ⟨e, e', he, he', hout⟩ := herase rules
    have hplainValue : (prepare tools inputs config false).value fs = .ok e.output := by
      rw [hvalue, hrules, Except.bind]
      simp only [Bool.false_eq_true, if_false, Array.empty_append, eraseText_of_ok he,
        Action.value_pure]
    have hheadedValue : (prepare tools inputs config true).value fs =
        .ok (Bytes.ofString s!"/* {name} */\n" ++ e.output) := by
      rw [hvalue, hrules, Except.bind]
      simp only [if_true, eraseText_of_ok he', Action.value_pure, hout]
    obtain ⟨hstatus, hfiles, hstdout⟩ := runStrip_none hplainValue
    obtain ⟨hstatus', hfiles', hstdout'⟩ := runStrip_none hheadedValue
    refine ⟨hstatus'.trans hstatus.symm, hfiles'.trans hfiles.symm, fun _ _ => ?_, ?_⟩
    · rw [hstdout', hstdout]
    · intro target status w hrun
      obtain ⟨rfl, place, hplace, hcontent⟩ := runStrip_some hheadedValue hrun
      refine ⟨hstatus, place, hplace, ?_⟩
      rw [hcontent, hstdout]

/-- A text with the word `as` in it, though not as its first word, with its header line and
without. -/
theorem erase_headerLine_file :
    let s := Bytes.ofString "let as: T = x as U"
    let tools := Tools.standard fun _ _ => none
    let fs : FileSystem := { root := .dir [("a", .file s)] }
    (∀ ch ∈ "a".toList, ch ≠ '/' ∧ ch ≠ '<') ∧ s.firstWord ≠ Bytes.ofString "as" ∧
      ((Action.collect tools.walk ["a"] : Action CommandError (List String))
        { files := fs }).1 = .ok ["a"] ∧
      fs.readText "a" = .ok s ∧
      (∃ e e', erase {} s = .ok e ∧ erase {} (Bytes.ofString "/* a */\n" ++ s) = .ok e' ∧
        e'.output = Bytes.ofString "/* a */\n" ++ e.output) ∧
      (runStrip tools ["a"] none none true { files := fs }).2.stdout =
        Bytes.ofString "/* a */\n" ++
          (runStrip tools ["a"] none none false { files := fs }).2.stdout ∧
      (runStrip tools ["a"] none none false { files := fs }).2.stdout =
        Bytes.ofString "let as/*: T*/ = x/* as U*/" := by
  intro s tools fs
  have hname : ∀ ch ∈ "a".toList, ch ≠ '/' ∧ ch ≠ '<' := by simp
  have hword : s.firstWord ≠ Bytes.ofString "as" := by decide +kernel
  have hcollect : ((Action.collect tools.walk ["a"] : Action CommandError (List String))
      { files := fs }).1 = .ok ["a"] := rfl
  have hread : fs.readText "a" = .ok s := by
    have hdecode : s.decode?.isSome = true := by decide +kernel
    exact if_pos hdecode
  obtain ⟨herase, hlink⟩ := erase_headerLine "a" hname s hword
  obtain ⟨-, -, hstdout, -⟩ := hlink tools fs ["a"] "a" none hcollect (by decide) (by decide)
    (by decide) (.inl rfl) hread
  exact ⟨hname, hword, hcollect, hread, herase {}, hstdout 0 (by decide +kernel), by decide +kernel⟩

end TypeErasure
