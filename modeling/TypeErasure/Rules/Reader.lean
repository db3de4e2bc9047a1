import TypeErasure.Json.Reader
import TypeErasure.Rules

/-!
# Reading rules

Rules are given as a JSON object that sets flags by their keys, or as a JSON list that sets them by
position. A flag that is not set keeps its default. Keys that name no flag are skipped with their
values; a key that names a flag can be given only once.
-/

namespace TypeErasure.Rules

open Json

/-! ### Values -/

/-- The fault of a value that is not of the form that is asked for, with first byte `c`. A scalar is
read before it is refused, and can turn out to be faulty itself; a list or object is refused at
once. -/
def mismatch (c : Byte) (s : List Byte) : ReadFault :=
  let scalar {α : Type} : Except ReadFault α → ReadFault
    | .error e => e
    | .ok _ => .mismatched
  let number : Except ReadFault (Decimal × List Byte) → ReadFault
    | .error e => e
    | .ok (d, _) => if d.overflows then .malformed else .mismatched
  if c.is 'n' then scalar (expect ['u', 'l', 'l'] s)
  else if c.is 't' then scalar (expect ['r', 'u', 'e'] s)
  else if c.is 'f' then scalar (expect ['a', 'l', 's', 'e'] s)
  else if c.is '"' then scalar (readString true s)
  else if c.is '-' then number (readNumber .ended s)
  else if c.isDigit then number (readNumber .ended (c :: s))
  else if c.among ['[', '{'] then .mismatched
  else .malformed

/-- Reads the setting of a flag. -/
def readFlag (s : List Byte) : Except ReadFault (Bool × List Byte) :=
  match skipWhite s with
  | [] => .error .ended
  | c :: s =>
    if c.is 't' then (expect ['r', 'u', 'e'] s).map (true, ·)
    else if c.is 'f' then (expect ['a', 'l', 's', 'e'] s).map (false, ·)
    else .error (mismatch c s)

/-- A setting takes at least one byte off the text: only the two words are settings, and each has a
first byte. -/
private theorem length_lt_of_readFlag {s rest : List Byte} {on : Bool}
    (h : readFlag s = .ok (on, rest)) : rest.length < s.length := by
  have hmap {b : Bool} {x : Except ReadFault (List Byte)} (h : x.map (b, ·) = .ok (on, rest)) :
      x = .ok rest := by
    cases x with
    | error e => simp [Except.map] at h
    | ok r => simp only [Except.map, Except.ok.injEq, Prod.mk.injEq] at h; rw [h.2]
  have hw := length_skipWhite_le s
  unfold readFlag at h
  split at h
  · simp at h
  · rename_i hs
    rw [hs, List.length_cons] at hw
    split at h
    · -- `true` and `false`, of which the first letter has been read
      have := length_le_of_expect (hmap h)
      omega
    · split at h
      · have := length_le_of_expect (hmap h)
        omega
      · simp at h

/-! ### Objects -/

/-- The flags that have been set, the latest first. -/
abbrev Settings := List (Flag × Bool)

/-- The rules with the given settings. -/
def ofSettings (settings : Settings) : Rules :=
  settings.foldr (fun (f, on) r => r.set f on) {}

/-- The flag whose key is the given text. -/
def flagOfBytes? (key : List Byte) : Option Flag :=
  Flag.all.find? fun f => (Bytes.ofString f.key).toList == key

/-- Reads a member, from its key on. -/
def readMember (settings : Settings) (s : List Byte) :
    Except ReadFault (Settings × List Byte) :=
  match readKey true s with
  | .error e => .error e
  | .ok (key, s) =>
    match flagOfBytes? key with
    | some f =>
      if settings.any fun (g, _) => g == f then .error .mismatched
      else match readColon s with
        | .error e => .error e
        | .ok s => (readFlag s).map fun (on, s) => ((f, on) :: settings, s)
    | none =>
      match readColon s with
      | .error e => .error e
      | .ok s => (skipValue [] s).map (settings, ·)

/-- A member takes at least its key off the text. Its value, a setting or a value that is skipped,
takes more off what is left. The reading of the members of an object ends because of this. -/
private theorem length_lt_of_readMember {settings settings' : Settings} {s rest : List Byte}
    (h : readMember settings s = .ok (settings', rest)) : rest.length < s.length := by
  unfold readMember at h
  split at h
  · simp at h
  · rename_i hk
    have := length_lt_of_readKey hk
    split at h
    · -- the key is a flag, which is set once
      split at h
      · simp at h
      · split at h
        · simp at h
        · rename_i t hc
          have := length_lt_of_readColon hc
          cases hf : readFlag t with
          | error e => simp [hf, Except.map] at h
          | ok p =>
            have := length_lt_of_readFlag hf
            simp only [hf, Except.map, Except.ok.injEq, Prod.mk.injEq] at h
            obtain ⟨-, rfl⟩ := h
            omega
    · -- the key is unknown, and its value is skipped
      split at h
      · simp at h
      · rename_i t hc
        have := length_lt_of_readColon hc
        cases hv : skipValue [] t with
        | error e => simp [hv, Except.map] at h
        | ok r =>
          have := length_lt_of_skipValue hv
          simp only [hv, Except.map, Except.ok.injEq, Prod.mk.injEq] at h
          obtain ⟨-, rfl⟩ := h
          omega

/-- Reads the members that follow the first one, and the end of the object. -/
def readMembers (settings : Settings) (s : List Byte) : Except ReadFault (Settings × List Byte) :=
  match _hs : skipWhite s with
  | [] => .error .ended
  | c :: s' =>
    if c.is '}' then .ok (settings, s')
    else if c.is ',' then
      match _hm : readMember settings s' with
      | .error e => .error e
      | .ok (settings, rest) => readMembers settings rest
    else .error .malformed
termination_by s.length
decreasing_by
  have hs := length_skipWhite_le s
  rw [_hs, List.length_cons] at hs
  have := length_lt_of_readMember _hm
  omega

/-- Reads an object behind its opening bracket. -/
def readObject (s : List Byte) : Except ReadFault (Settings × List Byte) :=
  match skipWhite s with
  | [] => .error .ended
  | c :: s =>
    if c.is '}' then .ok ([], s)
    else match readMember [] (c :: s) with
      | .error e => .error e
      | .ok (settings, s) => readMembers settings s

/-! ### Lists -/

/-- Reads the settings of the given flags behind an earlier item, and the end of the list. -/
def readItems (settings : Settings) : List Flag → List Byte →
    Except ReadFault (Settings × List Byte)
  | [], s =>
    match skipWhite s with
    | [] => .error .ended
    | c :: s => if c.is ']' then .ok (settings, s) else .error .malformed
  | f :: flags, s =>
    match skipWhite s with
    | [] => .error .ended
    | c :: s =>
      if c.is ']' then .ok (settings, s)
      else if c.is ',' then
        match readFlag s with
        | .error e => .error e
        | .ok (on, s) => readItems ((f, on) :: settings) flags s
      else .error .malformed

/-- Reads a list behind its opening bracket. -/
def readList (s : List Byte) : Except ReadFault (Settings × List Byte) :=
  match skipWhite s with
  | [] => .error .ended
  | c :: s =>
    if c.is ']' then .ok ([], s)
    else match readFlag (c :: s) with
      | .error e => .error e
      | .ok (on, s) => readItems [(.typeAliases, on)] Flag.all.tail s

/-! ### Texts -/

/-- Reads settings in either form. -/
def readSettings (s : List Byte) : Except ReadFault (Settings × List Byte) :=
  match skipWhite s with
  | [] => .error .ended
  | c :: s =>
    if c.is '{' then readObject s
    else if c.is '[' then readList s
    else .error (mismatch c s)

/-- **The rules that a JSON text sets.** Nothing but whitespace may follow them. -/
def read (text : Bytes) : Except ReadFault Rules :=
  match readSettings text.toList with
  | .error e => .error e
  | .ok (settings, rest) =>
    if (skipWhite rest).isEmpty then .ok (ofSettings settings) else .error .malformed

end TypeErasure.Rules
