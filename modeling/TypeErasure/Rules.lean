import TypeErasure.Construct

/-!
# Rules: which constructs are erased

Each kind of type syntax has a flag that says whether it is erased. Literals have none: they are
always recognised. The order of `Flag.all` is the order in which flags are listed by position.
-/

namespace TypeErasure

/-- The kinds of type syntax that can be switched on and off. -/
inductive Flag where
  | typeAliases
  | interfaces
  | ambient
  | casts
  | annotations
  | returnTypes
  | generics
  | classMembers
  deriving DecidableEq, Repr

namespace Flag

/-- All flags, in the order in which they are listed by position. -/
def all : List Flag :=
  [typeAliases, interfaces, ambient, casts, annotations, returnTypes, generics, classMembers]

/-- The key of the flag in a configuration. -/
def key : Flag → String
  | typeAliases => "typeAliases"
  | interfaces => "interfaces"
  | ambient => "ambient"
  | casts => "casts"
  | annotations => "annotations"
  | returnTypes => "returnTypes"
  | generics => "generics"
  | classMembers => "classMembers"

end Flag

/-- The flag that switches a construct; literals have none. -/
def Construct.flag? : Construct → Option Flag
  | literal _ => none
  | ambient => some .ambient
  | typeAlias => some .typeAliases
  | interface => some .interfaces
  | classMembers => some .classMembers
  | typeArguments => some .generics
  | returnType => some .returnTypes
  | annotated => some .annotations
  | cast => some .casts

/-- A setting of all flags. By default everything is erased. -/
structure Rules where
  typeAliases : Bool := true
  interfaces : Bool := true
  ambient : Bool := true
  casts : Bool := true
  annotations : Bool := true
  returnTypes : Bool := true
  generics : Bool := true
  classMembers : Bool := true
  deriving DecidableEq, Repr

namespace Rules

instance : Inhabited Rules := ⟨{}⟩

/-- The setting of one flag. -/
def get (r : Rules) : Flag → Bool
  | .typeAliases => r.typeAliases
  | .interfaces => r.interfaces
  | .ambient => r.ambient
  | .casts => r.casts
  | .annotations => r.annotations
  | .returnTypes => r.returnTypes
  | .generics => r.generics
  | .classMembers => r.classMembers

/-- The rules with one flag set anew. -/
def set (r : Rules) (f : Flag) (on : Bool) : Rules :=
  match f with
  | .typeAliases => { r with typeAliases := on }
  | .interfaces => { r with interfaces := on }
  | .ambient => { r with ambient := on }
  | .casts => { r with casts := on }
  | .annotations => { r with annotations := on }
  | .returnTypes => { r with returnTypes := on }
  | .generics => { r with generics := on }
  | .classMembers => { r with classMembers := on }

/-- Setting a flag changes that flag and no other. -/
@[simp] theorem get_set (r : Rules) (f g : Flag) (on : Bool) :
    (r.set f on).get g = if g = f then on else r.get g := by
  cases f <;> cases g <;> rfl

/-- The construct takes part in a run. -/
def enables (r : Rules) (k : Construct) : Bool :=
  match k.flag? with
  | none => true
  | some f => r.get f

end Rules

end TypeErasure
