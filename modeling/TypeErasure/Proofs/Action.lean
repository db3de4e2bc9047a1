import TypeErasure.Action

/-!
# Actions that only look

An action that reads, tests and walks, but neither writes nor prints, is known from two functions of
the files: the `value` that it gives and the `trace` of its accesses. Whatever world it is carried
out in, it gives that value and appends that trace to the log, and nothing else about the world is
changed. Such an action is one with `Looks`.

Actions that look one after the other look together (`Looks.bind`), so that what a command does up
to the point where it writes or prints is taken apart step by step (`Looks.bind_apply`).
-/

namespace TypeErasure

/-- The access changes nothing. -/
def Access.looks : Access → Bool
  | read _ | test _ | walk _ => true
  | create _ | write _ _ | print _ => false

namespace World

/-- The world with more accesses on record. -/
def notes (w : World) (accesses : List Access) : World :=
  { w with log := w.log ++ accesses }

/-- Accesses that are put on record change no file. -/
@[simp] theorem notes_files (w : World) (accesses : List Access) :
    (w.notes accesses).files = w.files := rfl

/-- They print nothing. -/
@[simp] theorem notes_stdout (w : World) (accesses : List Access) :
    (w.notes accesses).stdout = w.stdout := rfl

@[simp] theorem notes_log (w : World) (accesses : List Access) :
    (w.notes accesses).log = w.log ++ accesses := rfl

private theorem notes_nil (w : World) : w.notes [] = w := by
  rw [notes, List.append_nil]

/-- Accesses that are put on record in two steps are so in one. -/
private theorem notes_notes (w : World) (xs ys : List Access) :
    (w.notes xs).notes ys = w.notes (xs ++ ys) := by
  rw [notes, notes, notes, List.append_assoc]

end World

namespace Action

variable {ε α β γ : Type}

/-- An action goes on with what it gives, in the world that it leaves. If it fails, nothing more is
done. -/
theorem bind_apply (x : Action ε α) (f : α → Action ε β) (w : World) :
    (x >>= f) w = match x w with
      | (.error e, w') => (.error e, w')
      | (.ok a, w') => f a w' := rfl

/-- Actions are grouped in any way. The only case that matters is that the first one succeeds. -/
theorem bind_assoc (x : Action ε α) (f : α → Action ε β) (g : β → Action ε γ) :
    x >>= f >>= g = x >>= fun a => f a >>= g := by
  funext w
  rw [bind_apply, bind_apply, bind_apply]
  -- the first action has failed, or has given a value
  rcases x w with ⟨e | a, w'⟩
  · rfl
  · rfl

/-! ### Values and traces -/

/-- What the action gives on the given files, when nothing has been done before. -/
def value (x : Action ε α) (files : FileSystem) : Except ε α :=
  (x { files }).1

/-- The accesses that the action makes on the given files, when nothing has been done before. -/
def trace (x : Action ε α) (files : FileSystem) : List Access :=
  (x { files }).2.log

/-- **The action only looks**: in every world it gives its value for the files of that world, makes
the accesses of its trace, none of which changes anything, and leaves the rest of the world as it
is. -/
structure Looks (x : Action ε α) : Prop where
  apply : ∀ w, x w = (x.value w.files, w.notes (x.trace w.files))
  looks : ∀ files, (x.trace files).all Access.looks = true

/-- Giving a value gives it. -/
@[simp] theorem value_pure (a : α) (files : FileSystem) :
    (pure a : Action ε α).value files = .ok a := rfl

/-- It makes no access. -/
@[simp] theorem trace_pure (a : α) (files : FileSystem) :
    (pure a : Action ε α).trace files = [] := rfl

theorem looks_pure (a : α) : (pure a : Action ε α).Looks :=
  ⟨fun w => by rw [trace_pure, World.notes_nil]; rfl, fun _ => rfl⟩

@[simp] theorem value_fail (e : ε) (files : FileSystem) :
    (fail e : Action ε α).value files = .error e := rfl

@[simp] theorem trace_fail (e : ε) (files : FileSystem) :
    (fail e : Action ε α).trace files = [] := rfl

theorem looks_fail (e : ε) : (fail e : Action ε α).Looks :=
  ⟨fun w => by rw [trace_fail, World.notes_nil]; rfl, fun _ => rfl⟩

/-- Looking gives what there is to see. -/
@[simp] theorem value_look (access : Access) (view : FileSystem → α) (files : FileSystem) :
    (look access view : Action ε α).value files = .ok (view files) := rfl

/-- It makes one access. -/
@[simp] theorem trace_look (access : Access) (view : FileSystem → α) (files : FileSystem) :
    (look access view : Action ε α).trace files = [access] := rfl

private theorem looks_look (access : Access) (h : access.looks = true) (view : FileSystem → α) :
    (look access view : Action ε α).Looks :=
  ⟨fun _ => rfl, fun _ => by rw [trace_look, List.all_cons, h]; rfl⟩

section Bind

variable {x : Action ε α} {f : α → Action ε β}

/-- **What follows an action that only looks** starts in the same world, but for the log. If the
action fails, nothing follows. -/
theorem Looks.bind_apply (hx : x.Looks) (f : α → Action ε β) (w : World) :
    (x >>= f) w = match x.value w.files with
      | .error e => (.error e, w.notes (x.trace w.files))
      | .ok a => f a (w.notes (x.trace w.files)) := by
  rw [Action.bind_apply, hx.apply]
  cases x.value w.files <;> rfl

/-- **The value of a sequence** is that of its second part on the value of the first. Both see the
same files, because the first changes none. -/
theorem Looks.value_bind (hx : x.Looks) (hf : ∀ a, (f a).Looks) (files : FileSystem) :
    (x >>= f).value files = (x.value files).bind fun a => (f a).value files := by
  rw [value, hx.bind_apply]
  cases x.value files with
  | error e =>
    -- nothing follows a failure
    rfl
  | ok a =>
    -- the second part starts with a longer log, which it does not look at
    dsimp only
    rw [(hf a).apply]
    rfl

/-- **The trace of a sequence** is that of its first part and, unless this fails, that of the second
behind it. -/
theorem Looks.trace_bind (hx : x.Looks) (hf : ∀ a, (f a).Looks) (files : FileSystem) :
    (x >>= f).trace files = x.trace files ++
      match x.value files with
      | .error _ => []
      | .ok a => (f a).trace files := by
  rw [trace, hx.bind_apply]
  cases x.value files with
  | error e => rw [List.append_nil]; rfl
  | ok a =>
    dsimp only
    rw [(hf a).apply]
    rfl

/-- **Actions that only look, one after the other, only look.** The second one starts with a longer
log, on which neither its value nor its trace depends. Both parts are said by their values and
traces, and what is left is to group the log. -/
theorem Looks.bind (hx : x.Looks) (hf : ∀ a, (f a).Looks) : (x >>= f).Looks := by
  constructor
  · intro w
    rw [hx.bind_apply, hx.value_bind hf, hx.trace_bind hf]
    cases x.value w.files with
    | error e => rw [List.append_nil]; rfl
    | ok a =>
      dsimp only
      rw [(hf a).apply, World.notes_notes]
      rfl
  · intro files
    rw [hx.trace_bind hf, List.all_append, hx.looks files]
    -- the trace of the second part is there only if the first has succeeded
    cases x.value files with
    | error e => rfl
    | ok a => exact (hf a).looks files

end Bind

/-! ### Inputs -/

theorem looks_readText (path : String) :
    (readText path : Action ε (Except AccessFault Bytes)).Looks :=
  looks_look (.read path) rfl _

/-- What follows a reading starts with what was read. -/
theorem readText_bind_apply (path : String) (f : Except AccessFault Bytes → Action ε α)
    (w : World) : (readText path >>= f) w = f (w.files.readText path) (w.notes [.read path]) := rfl

/-- The files that an input stands for, as the walker gives them. -/
def contribution (walk : Walker) (files : FileSystem) (input : String) : List String :=
  if files.isDir input then (walk files input Entry.isWanted).filterMap sourceOf? else [input]

section Expand

variable (walk : Walker) (input : String) (files : FileSystem)

/-- Finding the files of an input only looks: it asks whether the input is a directory, and walks
through it if so. -/
private theorem looks_expand : (expand walk input : Action ε (List String)).Looks := by
  refine (looks_look (.test input) rfl _).bind fun isDir => ?_
  -- a directory is walked through, and any other input is a file
  split
  · exact looks_look (.walk input) rfl _
  · exact looks_pure _

/-- It gives the files that the input stands for. -/
private theorem value_expand :
    (expand walk input : Action ε (List String)).value files =
      .ok (contribution walk files input) := by
  unfold contribution value expand
  rw [Action.bind_apply, look]
  cases files.isDir input <;> rfl

end Expand

/-- **Finding the files of all inputs only looks.** By induction on the inputs. -/
theorem looks_collect (walk : Walker) (inputs : List String) :
    (collect walk inputs : Action ε (List String)).Looks := by
  induction inputs with
  | nil => exact looks_pure _
  | cons input rest ih =>
    exact (looks_expand walk input).bind fun _ => ih.bind fun _ => looks_pure _

/-- **The files of a list of inputs** are those of its inputs, one after the other. By induction on
the inputs. Those behind the first are found in the same files. -/
theorem value_collect (walk : Walker) (inputs : List String) (files : FileSystem) :
    (collect walk inputs : Action ε (List String)).value files =
      .ok (inputs.flatMap (contribution walk files)) := by
  induction inputs with
  | nil => rfl
  | cons input rest ih =>
    -- what follows the first input only looks
    have hrest (found : List String) :
        (do let more ← collect walk rest; pure (found ++ more) : Action ε (List String)).Looks :=
      (looks_collect walk rest).bind fun _ => looks_pure _
    rw [collect, (looks_expand walk input).value_bind hrest, value_expand, Except.bind,
      (looks_collect walk rest).value_bind fun _ => looks_pure _, ih, List.flatMap_cons]
    rfl

end Action

end TypeErasure
