import TypeErasure.Command
import TypeErasure.Proofs.Action
import TypeErasure.Proofs.FileTree
import TypeErasure.Proofs.Run

/-!
# What commands read and write

A command is taken apart at the point where it has read everything. Up to there it only looks, and
what it has by then is said without actions: the rules of a configuration (`RulesOf`), the text that
files are linked to (`LinksTo`), and what is left of this text when its types are erased (`Strips`).

From there on `strip` makes one delivery. A text that is to be written can be refused before the
file is opened, or break off behind that, when the file has been emptied; `Delivery` lists the ways
in which it ends.
-/

namespace TypeErasure

open TypeErasure.Action

/-! ### Inputs -/

/-- **The rules that a configuration gives**: those that its file is read to, or the default rules
if there is none. -/
inductive RulesOf (read : RulesReader) (fs : FileSystem) : Option String → Rules → Prop where
  | default : RulesOf read fs none {}
  | config {path : String} {text : Bytes} {rules : Rules} (htext : fs.readText path = .ok text)
      (hrules : read text = .ok rules) : RulesOf read fs (some path) rules

section LoadRules

variable (read : RulesReader) (config : Option String) (fs : FileSystem)

/-- Loading the rules only looks: it reads the configuration, if there is one, and may fail behind
that. -/
theorem looks_loadRules : (loadRules read config).Looks := by
  cases config with
  | none => exact looks_pure _
  | some path =>
    refine (looks_readText path).bind fun text => ?_
    -- the file cannot be read, or is not understood, or gives rules
    split
    · exact looks_fail _
    · split
      · exact looks_fail _
      · exact looks_pure _

variable {read config fs}

/-- **The rules that are loaded are those of the configuration.** Without a configuration both sides
speak of the default rules; with one, it has to be a text that the reader understands. -/
theorem value_loadRules_eq_ok_iff {rules : Rules} :
    (loadRules read config).value fs = .ok rules ↔ RulesOf read fs config rules := by
  cases config with
  | none =>
    -- no configuration is read
    constructor
    · intro h
      obtain rfl := Except.ok.inj h
      exact .default
    · rintro ⟨⟩
      rfl
  | some path =>
    rw [Action.value, loadRules, readText_bind_apply]
    constructor
    · -- an error of either step is passed on
      intro h
      cases htext : fs.readText path with
      | error e => simp [htext, Action.fail] at h
      | ok text =>
        cases hrules : read text with
        | error e => simp [htext, hrules, Action.fail] at h
        | ok found =>
          simp only [htext, hrules] at h
          obtain rfl := Except.ok.inj h
          exact .config htext hrules
    · -- both steps succeed
      rintro (_ | ⟨htext, hrules⟩)
      simp only [htext, hrules]
      rfl

end LoadRules

section LoadText

variable (path : String) (fs : FileSystem)

/-- Loading a text only looks. -/
theorem looks_loadText : (loadText path).Looks := by
  refine (looks_readText path).bind fun text => ?_
  split
  · exact looks_fail _
  · exact looks_pure _

/-- It gives the text of the file, or the fault with the name of the file. -/
theorem value_loadText :
    (loadText path).value fs =
      match fs.readText path with
      | .error e => .error (.unreadable path e)
      | .ok text => .ok text := by
  rw [Action.value, loadText, readText_bind_apply]
  cases fs.readText path <;> rfl

variable {path fs}

theorem value_loadText_eq_ok_iff {text : Bytes} :
    (loadText path).value fs = .ok text ↔ fs.readText path = .ok text := by
  rw [value_loadText]
  cases fs.readText path <;> simp

end LoadText

/-! ### Linking -/

/-- **The text that files are linked to**: their texts one after the other, each behind the line
with its name if headers are asked for. -/
inductive LinksTo (fs : FileSystem) (header : Bool) : List String → Bytes → Prop where
  | nil : LinksTo fs header [] #[]
  | cons {path : String} {text linked : Bytes} {files : List String}
      (htext : fs.readText path = .ok text) (rest : LinksTo fs header files linked) :
      LinksTo fs header (path :: files)
        ((if header then Bytes.ofString s!"/* {FileSystem.lastName path} */\n" else #[]) ++ text ++
          linked)

section Link

variable {header : Bool} {files : List String} {fs : FileSystem} {text : Bytes}

/-- Linking only looks. By induction on the files. -/
private theorem looks_link (header : Bool) (files : List String) : (link header files).Looks := by
  induction files with
  | nil => exact looks_pure _
  | cons path rest ih =>
    exact (looks_loadText path).bind fun _ => ih.bind fun _ => looks_pure _

/-- The value of a link, taken apart at its first file. Neither reading a file nor linking the rest
changes what is there to read. -/
private theorem value_link_cons (header : Bool) (path : String) (rest : List String)
    (fs : FileSystem) :
    (link header (path :: rest)).value fs =
      ((loadText path).value fs).bind fun text =>
        ((link header rest).value fs).bind fun linked =>
          .ok ((if header then headerLine path else #[]) ++ text ++ linked) := by
  rw [link, (looks_loadText path).value_bind fun _ =>
    (looks_link header rest).bind fun _ => looks_pure _]
  congr 1
  funext text
  rw [(looks_link header rest).value_bind fun _ => looks_pure _]
  rfl

/-- **Linking gives the text that the files are linked to**, and succeeds exactly if there is one.
By induction on the files: the first of them has to be a text, and the rest has to link. -/
theorem value_link_eq_ok_iff :
    (link header files).value fs = .ok text ↔ LinksTo fs header files text := by
  induction files generalizing text with
  | nil =>
    constructor
    · intro h
      obtain rfl := Except.ok.inj h
      exact .nil
    · rintro ⟨⟩
      rfl
  | cons path rest ih =>
    rw [value_link_cons]
    constructor
    · -- the first file or one of the others may fail
      intro h
      cases htext : (loadText path).value fs with
      | error e => simp [htext, Except.bind] at h
      | ok first =>
        cases hrest : (link header rest).value fs with
        | error e => simp [htext, hrest, Except.bind] at h
        | ok linked =>
          simp only [htext, hrest, Except.bind] at h
          obtain rfl := Except.ok.inj h
          exact .cons (value_loadText_eq_ok_iff.mp htext) (ih.mp hrest)
    · rintro (_ | ⟨htext, hrest⟩)
      rw [value_loadText_eq_ok_iff.mpr htext, ih.mpr hrest]
      rfl

end Link

/-! ### Erasure -/

/-- Every text is erased to something. This is the termination of a run, without what is known of
its pieces. -/
theorem exists_erase (rules : Rules) (text : Bytes) : ∃ e, erase rules text = .ok e := by
  obtain ⟨e, he, -⟩ := rules.grammar_lawful.exists_runFrom #[] text
  exact ⟨e, he⟩

theorem eraseText_of_ok {rules : Rules} {text : Bytes} {e : Erasure}
    (h : erase rules text = .ok e) : eraseText rules text = pure e.output := by
  rw [eraseText, h]

theorem looks_eraseText (rules : Rules) (text : Bytes) : (eraseText rules text).Looks := by
  obtain ⟨e, he⟩ := exists_erase rules text
  rw [eraseText_of_ok he]
  exact looks_pure _

/-! ### Up to the delivery -/

/-- The files that `strip` reads: those that its inputs stand for. -/
def stripFiles (tools : Tools) (fs : FileSystem) (inputs : List String) : List String :=
  inputs.flatMap (contribution tools.walk fs)

/-- **What `strip` makes of its inputs**: it links the files that they stand for and erases the
types of the result by the rules of the configuration. -/
def Strips (tools : Tools) (fs : FileSystem) (inputs : List String) (config : Option String)
    (header : Bool) (erased : Bytes) : Prop :=
  ∃ rules text e, RulesOf tools.readRules fs config rules ∧
    LinksTo fs header (stripFiles tools fs inputs) text ∧ erase rules text = .ok e ∧
      e.output = erased

/-- What `strip` does before it delivers its output. -/
def prepare (tools : Tools) (inputs : List String) (config : Option String) (header : Bool) :
    Action CommandError Bytes := do
  let rules ← loadRules tools.readRules config
  let files ← collect tools.walk inputs
  let linked ← link header files
  eraseText rules linked

section Prepare

variable {tools : Tools} {fs : FileSystem} {inputs : List String} {config : Option String}
  {header : Bool} {erased : Bytes}

/-- **`strip` prepares everything before it delivers anything.** -/
private theorem runStrip_eq_prepare (output : Option String) :
    runStrip tools inputs output config header =
      prepare tools inputs config header >>= fun erased =>
        deliver erased output >>= fun _ => pure 0 := by
  rw [runStrip, prepare]
  simp only [Action.bind_assoc]

/-- The preparation only looks, as each of its four steps does. -/
theorem looks_prepare (tools : Tools) (inputs : List String) (config : Option String)
    (header : Bool) : (prepare tools inputs config header).Looks :=
  (looks_loadRules _ _).bind fun _ => (looks_collect _ _).bind fun _ =>
    (looks_link _ _).bind fun _ => looks_eraseText _ _

/-- The value of the preparation, once the inputs are known. The steps are taken off one by one;
finding the files cannot fail. -/
theorem value_prepare :
    (prepare tools inputs config header).value fs =
      ((loadRules tools.readRules config).value fs).bind fun rules =>
        ((link header (stripFiles tools fs inputs)).value fs).bind fun linked =>
          (eraseText rules linked).value fs := by
  rw [prepare, (looks_loadRules _ _).value_bind fun _ => (looks_collect _ _).bind fun _ =>
    (looks_link _ _).bind fun _ => looks_eraseText _ _]
  congr 1
  funext rules
  rw [(looks_collect _ _).value_bind fun _ => (looks_link _ _).bind fun _ => looks_eraseText _ _,
    value_collect, Except.bind, (looks_link _ _).value_bind fun _ => looks_eraseText _ _]
  rfl

/-- **The preparation succeeds exactly if there is something to deliver.** Of its steps, reading the
configuration and linking can fail, and erasing cannot. -/
private theorem value_prepare_eq_ok_iff :
    (prepare tools inputs config header).value fs = .ok erased ↔
      Strips tools fs inputs config header erased := by
  rw [value_prepare]
  constructor
  · -- reading the rules or linking may fail
    intro h
    cases hrules : (loadRules tools.readRules config).value fs with
    | error e => simp [hrules, Except.bind] at h
    | ok rules =>
      cases hlink : (link header (stripFiles tools fs inputs)).value fs with
      | error e => simp [hrules, hlink, Except.bind] at h
      | ok text =>
        obtain ⟨e, he⟩ := exists_erase rules text
        simp only [hrules, hlink, Except.bind, eraseText_of_ok he] at h
        exact ⟨rules, text, e, value_loadRules_eq_ok_iff.mp hrules, value_link_eq_ok_iff.mp hlink,
          he, Except.ok.inj h⟩
  · -- both have succeeded, and so does erasing
    rintro ⟨rules, text, e, hrules, hlink, he, rfl⟩
    rw [value_loadRules_eq_ok_iff.mpr hrules, value_link_eq_ok_iff.mpr hlink]
    simp only [Except.bind, eraseText_of_ok he]
    rfl

end Prepare

/-! ### The delivery -/

/-- **The ways in which a delivery ends**: with the text printed; with the output file not opened,
or opened but not written to the end; or with all of the text in the output file. -/
inductive Delivery (erased : Bytes) (w : World) :
    Option String → Except CommandError Unit × World → Prop where
  | printed : Delivery erased w none
      (.ok (), { w with stdout := w.stdout ++ erased, log := w.log ++ [.print erased] })
  | refused {path : String} {cause : AccessFault}
      (h : ∀ place, w.files.writePlace path = .ok place → w.files.faults.opening place ≠ none) :
      Delivery erased w (some path)
        (.error (.unwritable path cause), { w with log := w.log ++ [.create path] })
  | broken {path : String} {place : List String} {written : Nat} {cause : AccessFault}
      (hplace : w.files.writePlace path = .ok place) (hopen : w.files.faults.opening place = none)
      (hwrite : w.files.faults.writing place erased = some (written, cause)) :
      Delivery erased w (some path)
        (.error (.unwritable path cause),
          { w with files := w.files.setFile place (erased.slice 0 written),
                   log := w.log ++ [.create path, .write place erased] })
  | written {path : String} {place : List String}
      (hplace : w.files.writePlace path = .ok place) (hopen : w.files.faults.opening place = none)
      (hwrite : w.files.faults.writing place erased = none) :
      Delivery erased w (some path)
        (.ok (), { w with files := w.files.setFile place erased,
                          log := w.log ++ [.create path, .write place erased] })

/-- **A delivery ends in one of these ways.** What is written last counts, so the file that was
emptied when it was opened has the content that was written, or the part of it that was. One case
for each way to end: the place of the file cannot be told, the file cannot be opened, or the writing
breaks off or succeeds. -/
theorem delivery_deliver (erased : Bytes) (output : Option String) (w : World) :
    Delivery erased w output (deliver erased output w) := by
  cases output with
  | none => exact .printed
  | some path =>
    rw [deliver, Action.bind_apply, writeFile, Action.bind_apply, Action.create,
      FileSystem.create]
    cases hplace : w.files.writePlace path with
    | error e =>
      -- the place to write to is not known
      exact .refused fun place h => by simp [hplace] at h
    | ok place =>
      dsimp only
      cases hopen : w.files.faults.opening place with
      | some e =>
        -- the file cannot be opened
        refine .refused fun other h => ?_
        obtain rfl := Except.ok.inj (hplace.symm.trans h)
        simp [hopen]
      | none =>
        -- the file has been emptied, and is written to
        dsimp only [writeAll, FileSystem.writeAll]
        have hfaults : (w.files.setFile place #[]).faults = w.files.faults := rfl
        simp only [World.note, hfaults, FileSystem.setFile_setFile]
        cases hwrite : w.files.faults.writing place erased with
        | none =>
          simp only [List.append_assoc]
          exact .written hplace hopen hwrite
        | some fault =>
          obtain ⟨written, cause⟩ := fault
          simp only [List.append_assoc]
          exact .broken hplace hopen hwrite

section Strip

variable {tools : Tools} {fs : FileSystem} {inputs : List String} {config : Option String}
  {header : Bool}

/-- What is erased is determined by the files. The preparation is a function of the files. -/
theorem Strips.unique {erased erased' : Bytes} (h : Strips tools fs inputs config header erased)
    (h' : Strips tools fs inputs config header erased') : erased = erased' :=
  Except.ok.inj ((value_prepare_eq_ok_iff.mpr h).symm.trans (value_prepare_eq_ok_iff.mpr h'))

/-- The world in which the delivery is made: nothing is changed but the log. -/
def preparedWorld (tools : Tools) (fs : FileSystem) (inputs : List String)
    (config : Option String) (header : Bool) : World :=
  { files := fs, log := (prepare tools inputs config header).trace fs }

/-- `strip` delivers what is prepared. The world before has nothing on record, so the log is the
trace of the preparation. -/
theorem runStrip_apply (output : Option String) :
    runStrip tools inputs output config header { files := fs } =
      match (prepare tools inputs config header).value fs with
      | .error e => (.error e, preparedWorld tools fs inputs config header)
      | .ok erased => (deliver erased output >>= fun _ => pure 0)
          (preparedWorld tools fs inputs config header) := by
  rw [runStrip_eq_prepare, (looks_prepare tools inputs config header).bind_apply]
  dsimp only
  cases (prepare tools inputs config header).value fs <;> rfl

/-- Without an output file, what is prepared is printed. Printing cannot fail. -/
theorem runStrip_none {erased : Bytes}
    (h : (prepare tools inputs config header).value fs = .ok erased) :
    (runStrip tools inputs none config header { files := fs }).1 = .ok 0 ∧
      (runStrip tools inputs none config header { files := fs }).2.files = fs ∧
        (runStrip tools inputs none config header { files := fs }).2.stdout = erased := by
  rw [runStrip_apply, h]
  exact ⟨rfl, rfl, Array.empty_append⟩

/-- **`strip` fails without a delivery, or ends as its delivery does.** If nothing can be prepared,
`strip` ends with the error. Otherwise its delivery ends in one of the ways that `Delivery` lists,
and decides whether `strip` fails. -/
theorem runStrip_cases (tools : Tools) (fs : FileSystem) (inputs : List String)
    (output config : Option String) (header : Bool) :
    ((∀ erased, ¬ Strips tools fs inputs config header erased) ∧
        ∃ e, runStrip tools inputs output config header { files := fs } =
          (.error e, preparedWorld tools fs inputs config header)) ∨
      ∃ erased, Strips tools fs inputs config header erased ∧
        ∃ result w,
          Delivery erased (preparedWorld tools fs inputs config header) output (result, w) ∧
          runStrip tools inputs output config header { files := fs } =
            (result.map fun _ => 0, w) := by
  rw [runStrip_apply]
  cases hvalue : (prepare tools inputs config header).value fs with
  | error e =>
    -- nothing is delivered
    refine .inl ⟨fun erased herased => ?_, e, rfl⟩
    simp [value_prepare_eq_ok_iff.mpr herased] at hvalue
  | ok erased =>
    -- the delivery decides
    refine .inr ⟨erased, value_prepare_eq_ok_iff.mp hvalue, ?_⟩
    dsimp only
    rw [Action.bind_apply]
    have hdelivery := delivery_deliver erased output (preparedWorld tools fs inputs config header)
    generalize deliver erased output (preparedWorld tools fs inputs config header) = ended at *
    obtain ⟨e | done, w⟩ := ended
    · exact ⟨.error e, w, hdelivery, rfl⟩
    · exact ⟨.ok done, w, hdelivery, rfl⟩

/-- With an output file, what is prepared is written to it, if that succeeds. Of the four ways in
which a delivery may end, only one succeeds with an output file. -/
theorem runStrip_some {erased : Bytes} {target : String} {status : Nat} {w : World}
    (h : (prepare tools inputs config header).value fs = .ok erased)
    (hrun : runStrip tools inputs (some target) config header { files := fs } = (.ok status, w)) :
    status = 0 ∧ ∃ place, fs.writePlace target = .ok place ∧
      w.files.root.get? place = some (.file erased) := by
  rcases runStrip_cases tools fs inputs (some target) config header with
    ⟨hnone, -⟩ | ⟨other, hother, result, w', hdelivery, hrun'⟩
  · exact absurd (value_prepare_eq_ok_iff.mp h) (hnone erased)
  · obtain rfl := (value_prepare_eq_ok_iff.mp h).unique hother
    obtain ⟨hstatus, rfl⟩ := Prod.mk.inj (hrun.symm.trans hrun')
    -- an error is not the status that was given
    cases hdelivery with
    | refused => simp [Except.map] at hstatus
    | broken => simp [Except.map] at hstatus
    | @written _ place hplace hopen hwrite =>
      exact ⟨Except.ok.inj hstatus, place, hplace,
        (FileSystem.overwritten_setFile hplace erased).content⟩

end Strip

end TypeErasure
