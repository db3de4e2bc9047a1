import TypeErasure.Program
import TypeErasure.Proofs.Command
import TypeErasure.Proofs.JsonText

/-!
# Configurations

What the rules of a configuration depend on. A configuration is the text of a JSON object
(`ObjectText`) with members for some of the flags and any others.

Of the reader of configurations it is relied on that it goes through an object member by member
(`ReaderLaws`): a member with the name of a flag is taken for its setting, any other is passed
over as a whole, and at the end the flags that were not set are filled in from the default rules. As
no flag is set twice, it follows by induction on the members that their order does not matter
(`ReaderLaws.read_object`).

Main statements: `loadRules_object`, and that the reader which comes with the program obeys the laws
(`laws_read`).
-/

namespace TypeErasure.Rules

open Json
open Byte (ofChar)

/-! ### Texts of configurations -/

/-- The names of the flags in a configuration. -/
def flagNames : List (Flag × String) :=
  [(.typeAliases, "typeAliases"), (.interfaces, "interfaces"), (.ambient, "ambient"),
    (.casts, "casts"), (.annotations, "annotations"), (.returnTypes, "returnTypes"),
    (.generics, "generics"), (.classMembers, "classMembers")]

/-- A member of a configuration. -/
inductive Member where
  | flag (f : Flag) (on : Bool)
  /-- A member that sets no flag, by what stands between the quotes of its key. -/
  | other (key : List Byte)
  deriving DecidableEq

/-- The setting that a member adds. -/
def Member.setting? : Member → Option (Flag × Bool)
  | flag f on => some (f, on)
  | other _ => none

/-- The settings of members, in their order. -/
def settingsOf (members : List Member) : Settings :=
  members.filterMap Member.setting?

/-- The text of a boolean. -/
def boolText (on : Bool) : List Byte :=
  (if on then ['t', 'r', 'u', 'e'] else ['f', 'a', 'l', 's', 'e']).map ofChar

/-- The text of a member up to the end of its value. A key can be escaped in any way. -/
inductive MemberText : Member → List Byte → Prop where
  | flag {f : Flag} {on : Bool} {name : String} {key l : List Byte}
      (hname : (f, name) ∈ flagNames) (hkey : Spells key (Bytes.ofString name).toList)
      (hl : KeyText key l) : MemberText (.flag f on) (l ++ boolText on)
  | other {key t l v : List Byte} (hkey : Spells key t)
      (hother : ∀ p ∈ flagNames, (Bytes.ofString p.2).toList ≠ t) (hl : KeyText key l)
      (hv : Written .value v) : MemberText (.other key) (l ++ v)

/-- The text of one or more members. -/
inductive MembersText : List Member → List Byte → Prop where
  | last {m : Member} {s w : List Byte} (hm : MemberText m s) (hw : White w) :
      MembersText [m] (s ++ w)
  | more {m : Member} {members : List Member} {s w t : List Byte} (hm : MemberText m s)
      (hw : White w) (ht : MembersText members t) :
      MembersText (m :: members) (s ++ (w ++ ofChar ',' :: t))

/-- **The text of an object**, with whitespace around it. -/
inductive ObjectText : List Member → List Byte → Prop where
  | empty {w w' w'' : List Byte} (hw : White w) (hw' : White w') (hw'' : White w'') :
      ObjectText [] (w ++ ofChar '{' :: (w' ++ ofChar '}' :: w''))
  | members {members : List Member} {s w w' : List Byte} (hw : White w)
      (hs : MembersText members s) (hw' : White w') :
      ObjectText members (w ++ ofChar '{' :: (s ++ ofChar '}' :: w'))

/-! ### Readers -/

/-- **What is relied on of a reader of configurations.** It goes through an object member by member;
`member` is what it gives from a member on and `after` what it gives behind one, with the settings
that it has met so far. -/
structure ReaderLaws (read : RulesReader)
    (member after : Settings → List Byte → Except ReadFault Rules) : Prop where
  /-- An object without members leaves all flags to the default rules. -/
  empty : ∀ {w w' w'' : List Byte}, White w → White w' → White w'' →
    read (w ++ ofChar '{' :: (w' ++ ofChar '}' :: w'')).toArray = .ok {}
  /-- An object with members is read from the first of them on. -/
  opened : ∀ {w key l : List Byte} (rest : List Byte), White w → KeyText key l →
    read (w ++ ofChar '{' :: (l ++ rest)).toArray = member [] (l ++ rest)
  /-- A key with the name of a flag that is not set yet, and a boolean, set the flag. -/
  flag : ∀ {settings : Settings} {f : Flag} {key l : List Byte} (on : Bool) (rest : List Byte),
    f ∉ settings.map (·.1) → Spells key (Bytes.ofString f.key).toList → KeyText key l →
      member settings (l ++ (boolText on ++ rest)) = after ((f, on) :: settings) rest
  /-- A member of another name is skipped with its value, whatever that is. -/
  unknown : ∀ {key t l v rest : List Byte} (settings : Settings), Spells key t →
    (∀ f : Flag, (Bytes.ofString f.key).toList ≠ t) → KeyText key l → Written .value v →
      Follows rest → member settings (l ++ (v ++ rest)) = after settings rest
  /-- Behind a comma the next member is read. -/
  comma : ∀ {w : List Byte} (settings : Settings) (s : List Byte), White w →
    after settings (w ++ ofChar ',' :: s) = member settings s
  /-- At the end of the object the flags have the values that were set, and the others those of the
  default rules. -/
  closed : ∀ {settings : Settings} {w w' : List Byte}, (settings.map (·.1)).Nodup → White w →
    White w' → ∃ r, after settings (w ++ ofChar '}' :: w') = .ok r ∧
      ∀ f, (∀ on, (f, on) ∈ settings → r.get f = on) ∧
        (f ∉ settings.map (·.1) → r.get f = ({} : Rules).get f)

/-- The table of the names lists each flag with its key, and no other name. -/
private theorem mem_flagNames_iff {f : Flag} {name : String} :
    (f, name) ∈ flagNames ↔ name = f.key := by
  cases f <;> simp [flagNames, Flag.key]

section Members

variable {m : Member} {members : List Member} {settings : Settings}

/-- The settings are met one after the other and put before those from before, so that in the end
they stand in reverse. -/
private theorem reverse_settingsOf_cons (m : Member) (members : List Member) (settings : Settings) :
    (settingsOf (m :: members)).reverse ++ settings =
      (settingsOf members).reverse ++ (m.setting?.toList ++ settings) := by
  cases m with
  | flag f on => simp [settingsOf, Member.setting?]
  | other key => rw [settingsOf, List.filterMap_cons_none rfl]; rfl

/-- Among settings without repetition, that of a member is new to those from before. It stands right
before them. -/
private theorem fst_notMem_of_nodup
    (hnodup : (((settingsOf (m :: members)).reverse ++ settings).map (·.1)).Nodup) :
    ∀ p ∈ m.setting?, p.1 ∉ settings.map (·.1) := by
  rw [reverse_settingsOf_cons, List.map_append, List.nodup_append] at hnodup
  intro p hp
  have htail := hnodup.2.1
  rw [Option.mem_def.mp hp, Option.toList_some, List.singleton_append, List.map_cons,
    List.nodup_cons] at htail
  exact htail.1

/-- A setting comes from a member for its flag. -/
private theorem mem_settingsOf {f : Flag} {on : Bool} :
    (f, on) ∈ settingsOf members ↔ .flag f on ∈ members := by
  rw [settingsOf, List.mem_filterMap]
  constructor
  · -- the member that gave the setting is one of the flag
    rintro ⟨m, hm, hsetting⟩
    cases m with
    | flag g b =>
      obtain ⟨rfl, rfl⟩ : g = f ∧ b = on := by simpa [Member.setting?] using hsetting
      exact hm
    | other key => simp [Member.setting?] at hsetting
  · intro hm
    exact ⟨_, hm, rfl⟩

/-- A text of members starts with a key. Whichever member is the first, it does. -/
private theorem MembersText.exists_keyText {s : List Byte} (h : MembersText members s) :
    ∃ key l rest, KeyText key l ∧ s = l ++ rest := by
  have hmember {m : Member} {s : List Byte} (hm : MemberText m s) :
      ∃ key l rest, KeyText key l ∧ s = l ++ rest := by
    cases hm with
    | flag _ _ hl => exact ⟨_, _, _, hl, rfl⟩
    | other _ _ hl _ => exact ⟨_, _, _, hl, rfl⟩
  cases h with
  | last hm hw =>
    obtain ⟨key, l, rest, hl, rfl⟩ := hmember hm
    exact ⟨key, l, _, hl, List.append_assoc ..⟩
  | more hm hw ht =>
    obtain ⟨key, l, rest, hl, rfl⟩ := hmember hm
    exact ⟨key, l, _, hl, List.append_assoc ..⟩

end Members

namespace ReaderLaws

variable {read : RulesReader} {member after : Settings → List Byte → Except ReadFault Rules}
  {members : List Member} {settings : Settings}

/-- **A member adds its setting**, if its flag has not been set. One case for each kind of member,
and one law for each. -/
theorem member_append (laws : ReaderLaws read member after) {m : Member} {s rest : List Byte}
    (h : MemberText m s) (hrest : Follows rest)
    (hnew : ∀ p ∈ m.setting?, p.1 ∉ settings.map (·.1)) :
    member settings (s ++ rest) = after (m.setting?.toList ++ settings) rest := by
  cases h with
  | @flag f on name key l hname hkey hl =>
    rw [mem_flagNames_iff.mp hname] at hkey
    rw [List.append_assoc]
    exact laws.flag on rest (hnew (f, on) rfl) hkey hl
  | @other key t l v hkey hother hl hv =>
    rw [List.append_assoc]
    exact laws.unknown settings hkey (fun f => hother _ (mem_flagNames_iff.mpr rfl)) hl hv hrest

/-- **Members add their settings**, the last one first. The induction is on the members, with any
settings from before. Behind the last member stands the closing bracket, behind the others a comma,
and neither goes on with a number. -/
theorem members_append (laws : ReaderLaws read member after) {s w : List Byte}
    (h : MembersText members s)
    (hnodup : (((settingsOf members).reverse ++ settings).map (·.1)).Nodup) :
    ∃ w', White w' ∧ member settings (s ++ ofChar '}' :: w) =
      after ((settingsOf members).reverse ++ settings) (w' ++ ofChar '}' :: w) := by
  induction h generalizing settings with
  | @last m s w' hm hw' =>
    -- the last member is followed by the bracket that closes the object
    refine ⟨w', hw', ?_⟩
    have hfollows : Follows (w' ++ ofChar '}' :: w) := follows_closer hw' .object w
    rw [List.append_assoc, laws.member_append hm hfollows (fst_notMem_of_nodup hnodup),
      reverse_settingsOf_cons]
    rfl
  | @more m members s w' t hm hw' ht ih =>
    -- any other is followed by a comma
    have hnew := fst_notMem_of_nodup hnodup
    rw [reverse_settingsOf_cons] at hnodup ⊢
    obtain ⟨w'', hw'', hrest⟩ := ih hnodup
    refine ⟨w'', hw'', ?_⟩
    simp only [List.append_assoc, List.cons_append]
    rw [laws.member_append hm (follows_comma hw' _) hnew, laws.comma _ _ hw', hrest]

/-- **The rules of an object**: each flag has the value of its member, and that of the default rules
if it has none. Each flag that is set is set once, so that its value is that of its only member. -/
theorem read_object (laws : ReaderLaws read member after) {text : List Byte}
    (h : ObjectText members text) (hflags : ((settingsOf members).map (·.1)).Nodup) :
    ∃ r, read text.toArray = .ok r ∧ ∀ f, (∀ on, .flag f on ∈ members → r.get f = on) ∧
      ((∀ on, .flag f on ∉ members) → r.get f = ({} : Rules).get f) := by
  cases h with
  | empty hw hw' hw'' =>
    -- without members all flags have their default value
    refine ⟨{}, laws.empty hw hw' hw'', fun f => ⟨fun on hon => ?_, fun _ => rfl⟩⟩
    exact absurd hon List.not_mem_nil
  | @members _ s w w' hw hs hw' =>
    have hreverse : ((settingsOf members).reverse.map (·.1)).Nodup :=
      ((List.reverse_perm _).map _).nodup_iff.mpr hflags
    have hnodup : (((settingsOf members).reverse ++ ([] : Settings)).map (·.1)).Nodup := by
      rwa [List.append_nil]
    obtain ⟨w'', hw'', hmembers⟩ := laws.members_append (w := w') hs hnodup
    obtain ⟨r, hr, hget⟩ := laws.closed hnodup hw'' hw'
    refine ⟨r, ?_, fun f =>
      ⟨fun on hon => (hget f).1 on ?_, fun hnone => (hget f).2 fun hmem => ?_⟩⟩
    · obtain ⟨key, l, rest, hl, rfl⟩ := hs.exists_keyText
      rw [List.append_assoc, laws.opened _ hw hl, ← List.append_assoc, hmembers, hr]
    · -- the settings are those of the members, in reverse
      rw [List.append_nil, List.mem_reverse, mem_settingsOf]
      exact hon
    · obtain ⟨p, hp, rfl⟩ := List.mem_map.mp hmem
      rw [List.append_nil, List.mem_reverse] at hp
      exact hnone p.2 (mem_settingsOf.mp hp)

end ReaderLaws

/-- Rules are determined by their flags. -/
private theorem ext_get {r r' : Rules} (h : ∀ f, r.get f = r'.get f) : r = r' := by
  cases r
  cases r'
  simp only [mk.injEq]
  exact ⟨h .typeAliases, h .interfaces, h .ambient, h .casts, h .annotations, h .returnTypes,
    h .generics, h .classMembers⟩

/-- By default all flags are on. -/
private theorem get_default (f : Flag) : ({} : Rules).get f = true := by
  cases f <;> rfl

/-- A configuration file is given to the reader. -/
private theorem loadRules_some {read : RulesReader} {fs : FileSystem} {path : String} {text : Bytes}
    {r : Rules} (htext : fs.readText path = .ok text) (hr : read text = .ok r) :
    (loadRules read (some path) { files := fs }).1 = .ok r :=
  value_loadRules_eq_ok_iff.mpr (.config htext hr)

/-- **A configuration is read by name only.** Each flag gets the value of its member, and is on if
it has none; whatever else two configurations differ in, be it the order of their members, those
that set no flag, or whitespace, the rules that they are loaded to are the same. Both configurations
are read by `ReaderLaws.read_object`, and rules with the same flags are the same. -/
theorem loadRules_object {read : RulesReader}
    {member after : Settings → List Byte → Except ReadFault Rules}
    (laws : ReaderLaws read member after) {members : List Member} {text : List Byte}
    (h : ObjectText members text) (hflags : ((settingsOf members).map (·.1)).Nodup) :
    ∃ r, (∀ fs path, FileSystem.readText fs path = .ok text.toArray →
        (loadRules read (some path) { files := fs }).1 = .ok r) ∧
      (∀ f, (∀ on, .flag f on ∈ members → r.get f = on) ∧
        ((∀ on, .flag f on ∉ members) → r.get f = true)) ∧
      ∀ members' text', ObjectText members' text' → ((settingsOf members').map (·.1)).Nodup →
        (∀ f on, .flag f on ∈ members' ↔ .flag f on ∈ members) →
        ∀ fs path, FileSystem.readText fs path = .ok text'.toArray →
          (loadRules read (some path) { files := fs }).1 = .ok r := by
  obtain ⟨r, hread, hget⟩ := laws.read_object h hflags
  refine ⟨r, fun fs path htext => loadRules_some htext hread, fun f => ?_, ?_⟩
  · rw [← get_default f]
    exact hget f
  · intro members' text' h' hflags' hsame fs path htext
    obtain ⟨r', hread', hget'⟩ := laws.read_object h' hflags'
    obtain rfl : r' = r := ext_get fun f => by
      -- a flag has the same member in both, or it has none and its default value
      by_cases hset : ∃ on, .flag f on ∈ members
      · obtain ⟨on, hmem⟩ := hset
        rw [(hget f).1 on hmem, (hget' f).1 on ((hsame f on).mpr hmem)]
      · have hnone (on : Bool) : .flag f on ∉ members := fun hmem => hset ⟨on, hmem⟩
        rw [(hget f).2 hnone, (hget' f).2 fun on hmem => hnone on ((hsame f on).mp hmem)]
    exact loadRules_some htext hread'

/-! ### The reader of the program -/

/-- The rules of the settings that were read, if nothing but whitespace is left. -/
def finish : Except ReadFault (Settings × List Byte) → Except ReadFault Rules
  | .error e => .error e
  | .ok (settings, rest) =>
    if (skipWhite rest).isEmpty then .ok (ofSettings settings) else .error .malformed

/-- Reads members from the first of those that are left on, and the end of the object. -/
def readElements (settings : Settings) (s : List Byte) : Except ReadFault (Settings × List Byte) :=
  match readMember settings s with
  | .error e => .error e
  | .ok (settings, rest) => readMembers settings rest

private theorem read_eq_finish (text : List Byte) :
    read text.toArray = finish (readSettings text) := by
  rw [read]
  cases readSettings text <;> rfl

/-- The key of a flag is recognised, for each of the eight flags. -/
private theorem flagOfBytes?_key (f : Flag) :
    flagOfBytes? (Bytes.ofString f.key).toList = some f := by
  cases f <;> decide +kernel

private theorem flagOfBytes?_eq_none {t : List Byte}
    (h : ∀ f : Flag, (Bytes.ofString f.key).toList ≠ t) : flagOfBytes? t = none := by
  rw [flagOfBytes?, List.find?_eq_none]
  intro f _
  simpa using h f

/-- A boolean is read with the whitespace before it. Its first letter decides which word is
expected. -/
private theorem readFlag_append {w : List Byte} (hw : White w) (on : Bool) (rest : List Byte) :
    readFlag (w ++ (boolText on ++ rest)) = .ok (on, rest) := by
  rw [readFlag, skipWhite_append hw]
  cases on with
  | true =>
    -- the letter `t` has been taken, and the rest of the word follows
    have htail := @expect_append ['r', 'u', 'e'] (by decide) rest
    exact congrArg (Except.map (true, ·)) htail
  | false =>
    have htail := @expect_append ['a', 'l', 's', 'e'] (by decide) rest
    exact congrArg (Except.map (false, ·)) htail

section ReadMember

variable {settings : Settings} {key l : List Byte}

/-- A key with the name of a flag sets the flag. The key is read as the text that it spells, and
recognised as that of the flag. A flag that had been set already would be refused. -/
private theorem readMember_flag {f : Flag} (hnew : f ∉ settings.map (·.1))
    (hkey : Spells key (Bytes.ofString f.key).toList) (hl : KeyText key l) (on : Bool)
    (rest : List Byte) :
    readMember settings (l ++ (boolText on ++ rest)) = .ok ((f, on) :: settings, rest) := by
  obtain ⟨x, hread, w, hw, hcolon⟩ := hl.readKey_append (boolText on ++ rest)
  rw [readMember, hread, readString_of_spells hkey]
  dsimp only
  rw [flagOfBytes?_key]
  dsimp only
  split
  · -- no member before has set the flag
    rename_i hany
    obtain ⟨p, hp, heq⟩ := List.any_eq_true.mp hany
    exact absurd (List.mem_map.mpr ⟨p, hp, by simpa using heq⟩) hnew
  · rw [hcolon]
    dsimp only
    rw [readFlag_append hw]
    rfl

/-- A member of another name is skipped. The key is read as a text and not recognised, and the value
is skipped up to its end (`Written.skips`). -/
private theorem readMember_unknown {t v rest : List Byte} (settings : Settings)
    (hkey : Spells key t) (hother : ∀ f : Flag, (Bytes.ofString f.key).toList ≠ t)
    (hl : KeyText key l) (hv : Written .value v) (hrest : Follows rest) :
    readMember settings (l ++ (v ++ rest)) = .ok (settings, rest) := by
  obtain ⟨x, hread, w, hw, hcolon⟩ := hl.readKey_append (v ++ rest)
  have hskip : skipValue [] (w ++ (v ++ rest)) = .ok rest := by
    rw [skipValue_white_append hw, hv.skips [] rest hrest, skipRest]
  rw [readMember, hread, readString_of_spells hkey]
  dsimp only
  rw [flagOfBytes?_eq_none hother]
  dsimp only
  rw [hcolon]
  dsimp only
  rw [hskip]
  rfl

end ReadMember

private theorem readMembers_closer {w : List Byte} (hw : White w) (settings : Settings)
    (rest : List Byte) :
    readMembers settings (w ++ ofChar '}' :: rest) = .ok (settings, rest) := by
  rw [readMembers, skipWhite_append hw, skipWhite_cons (by decide)]
  exact if_pos (by decide)

/-- A comma leads on to the next member. -/
private theorem readMembers_comma {w : List Byte} (hw : White w) (settings : Settings)
    (s : List Byte) : readMembers settings (w ++ ofChar ',' :: s) = readElements settings s := by
  rw [readMembers, skipWhite_append hw, skipWhite_cons (by decide)]
  dsimp only
  rw [if_neg (by decide), if_pos (by decide), readElements]
  cases readMember settings s <;> rfl

/-- An object with members is read from its first member on. It starts with a quote, and not with
the bracket that closes the object. -/
private theorem readObject_append {key l : List Byte} (hl : KeyText key l) (x : List Byte) :
    readObject (l ++ x) = readElements [] (l ++ x) := by
  obtain ⟨rest, hrest⟩ := hl.skipWhite_append x
  -- the key is read without the whitespace before it
  have hmember : readMember [] (ofChar '"' :: rest) = readMember [] (l ++ x) := by
    rw [← hrest, readMember, readMember, readKey, readKey, skipWhite_skipWhite]
  rw [readObject, hrest]
  dsimp only
  rewrite [if_neg (by decide), hmember, readElements]
  cases readMember [] (l ++ x) <;> rfl

private theorem readSettings_object {w : List Byte} (hw : White w) (s : List Byte) :
    readSettings (w ++ ofChar '{' :: s) = readObject s := by
  rw [readSettings, skipWhite_append hw, skipWhite_cons (by decide)]
  exact if_pos (by decide)

/-- **A flag that is set once has the value that it is set to.** By induction on the settings: none
of those before it is for the same flag. -/
private theorem get_ofSettings_of_mem {settings : Settings} {f : Flag} {on : Bool}
    (hnodup : (settings.map (·.1)).Nodup) (h : (f, on) ∈ settings) :
    (ofSettings settings).get f = on := by
  induction settings with
  | nil => simp at h
  | cons p settings ih =>
    rw [List.map_cons, List.nodup_cons] at hnodup
    rw [ofSettings, List.foldr_cons, get_set]
    -- the setting is the first one, or one of the others, which are for other flags
    rcases List.mem_cons.mp h with rfl | h
    · exact if_pos rfl
    · have hne : f ≠ p.1 := by
        rintro rfl
        exact hnodup.1 (List.mem_map.mpr ⟨_, h, rfl⟩)
      rw [if_neg hne]
      exact ih hnodup.2 h

/-- A flag that is not set has its default value. By induction on the settings. -/
private theorem get_ofSettings_of_not_mem {settings : Settings} {f : Flag}
    (h : f ∉ settings.map (·.1)) : (ofSettings settings).get f = ({} : Rules).get f := by
  induction settings with
  | nil => rfl
  | cons p settings ih =>
    rw [List.map_cons, List.mem_cons, not_or] at h
    rw [ofSettings, List.foldr_cons, get_set, if_neg h.1]
    exact ih h.2

/-- **The reader that comes with the program obeys the laws.** Each law is the lemma on the step of
the reader that it speaks of. -/
theorem laws_read : ReaderLaws read (fun settings s => finish (readElements settings s))
    (fun settings s => finish (readMembers settings s)) where
  empty {w w' w''} hw hw' hw'' := by
    have hobject : readObject (w' ++ ofChar '}' :: w'') = .ok ([], w'') := by
      rw [readObject, skipWhite_append hw', skipWhite_cons (by decide)]
      exact if_pos (by decide)
    rw [read_eq_finish, readSettings_object hw, hobject, finish, skipWhite_of_white hw'']
    rfl
  opened rest hw hl := by
    rw [read_eq_finish, readSettings_object hw, readObject_append hl]
  flag on rest hnew hkey hl := by
    rw [readElements, readMember_flag hnew hkey hl]
  unknown settings hkey hother hl hv hrest := by
    rw [readElements, readMember_unknown settings hkey hother hl hv hrest]
  comma settings s hw := by
    rw [readMembers_comma hw]
  closed {settings w w'} hnodup hw hw' := by
    refine ⟨ofSettings settings, ?_, fun f =>
      ⟨fun on h => get_ofSettings_of_mem hnodup h, get_ofSettings_of_not_mem⟩⟩
    rw [readMembers_closer hw, finish, skipWhite_of_white hw']
    rfl

/-- A configuration with an escaped key, behind a member that is skipped. The string in that member
stands for no text. -/
theorem loadRules_object_casts :
    let text := Bytes.ofString
      "\x7b\"x\":[-1.5e3, \x7b\"y\":\"\\ud800\"\x7d], \"\\u0063asts\":false\x7d"
    let fs : FileSystem := { root := .dir [("c", .file text)] }
    ∃ r, (loadRules read (some "c") { files := fs }).1 = .ok r ∧ r.get .casts = false ∧
      r.get .generics = true := by
  intro text fs
  -- the parts of the text, from the inside out
  have hnil : White [] := by simp [White]
  have hspace : White [ofChar ' '] := by simp [White]
  have hx : Spells [ofChar 'x'] [ofChar 'x'] := .plain (by decide) .nil
  have hy : StringText [ofChar 'y'] := .plain (by decide) .nil
  have hhalf : StringText (ofChar '\\' :: ofChar 'u' :: (['d', '8', '0', '0'].map ofChar ++ [])) :=
    .code (.digits (k := 13) (l := 8) (m := 0) (n := 0) (by decide) (by decide) (by decide)
      (by decide)) .nil
  have hnumber : Written .value ([ofChar '-'] ++ ([ofChar '1'] ++ ([ofChar '.', ofChar '5'] ++
      (ofChar 'e' :: ([] ++ [ofChar '3']))))) :=
    .number (.inr rfl) (.digits rfl rfl (by simp)) (.some (digits_singleton rfl))
      (.some (.inl rfl) (.inl rfl) (digits_singleton rfl))
  have hvalue := Written.group (.more (.list hnil) hnumber hnil (.last (.list hspace)
    (.group (.last (.object hy (.quoted hnil hnil hnil)) (.string hhalf) hnil)) hnil))
  have htail : Spells [ofChar 'a', ofChar 's', ofChar 't', ofChar 's']
      [ofChar 'a', ofChar 's', ofChar 't', ofChar 's'] :=
    .plain (by decide) (.plain (by decide) (.plain (by decide) (.plain (by decide) .nil)))
  -- the first letter of the key is written as a code
  have hcode : HexCode (['0', '0', '6', '3'].map ofChar) (((0 * 16 + 0) * 16 + 6) * 16 + 3) :=
    .digits (by decide) (by decide) (by decide) (by decide)
  have hcasts : Spells _ (Bytes.ofString "casts").toList :=
    Eq.mp (congrArg (Spells _) (by decide +kernel)) (Spells.code hcode (.inl (by decide)) htail)
  have hother : ∀ p ∈ flagNames, (Bytes.ofString p.2).toList ≠ [ofChar 'x'] := by decide +kernel
  have hflag : MemberText (.flag .casts false) _ :=
    .flag (by decide) hcasts (.quoted hspace hnil hnil)
  have hmembers := MembersText.more (.other hx hother (.quoted hnil hnil hnil) hvalue) hnil
    (.last hflag hnil)
  have hobject : ObjectText [.other [ofChar 'x'], .flag .casts false] text.toList :=
    Eq.mp (congrArg (ObjectText _) (by decide +kernel)) (ObjectText.members hnil hmembers hnil)
  -- the file holds a text, so that it can be read
  have hread : fs.readText "c" = .ok text.toList.toArray := by
    have hdecode : text.decode?.isSome = true := by decide +kernel
    rw [Array.toArray_toList]
    exact if_pos hdecode
  obtain ⟨r, hload, hget, -⟩ := loadRules_object laws_read hobject (by decide)
  exact ⟨r, hload fs "c" hread, (hget .casts).1 false (by simp), (hget .generics).2 (by simp)⟩

end TypeErasure.Rules
