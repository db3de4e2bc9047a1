import TypeErasure.Sources

/-!
# A walk in the order of names

A walker that comes to a directory before its entries, and to these in the order of their names. It
comes to no fault: a tree of files and directories can be accessed everywhere.
-/

namespace TypeErasure

/-- What stands at the root of a tree. -/
def FileTree.kind : FileTree → EntryKind
  | file _ => .file
  | dir _ => .dir

namespace Walker

mutual

/-- The entries that a walk comes to in a tree with the given path, name and depth. -/
def visits (keep : Entry → Bool) (path name : String) (depth : Nat) : FileTree → List Entry
  | .file _ => if keep ⟨path, name, depth, .file⟩ then [⟨path, name, depth, .file⟩] else []
  | .dir entries =>
    if keep ⟨path, name, depth, .dir⟩ then
      ⟨path, name, depth, .dir⟩ ::
        ((branches keep path (depth + 1) entries).mergeSort fun a b => a.1 ≤ b.1).flatMap (·.2)
    else []

/-- The entries that it comes to in each entry of a directory, with the name of that entry. -/
def branches (keep : Entry → Bool) (path : String) (depth : Nat) :
    List (String × FileTree) → List (String × List Entry)
  | [] => []
  | (name, t) :: rest =>
    (name, visits keep (FileSystem.push path name) name depth t) :: branches keep path depth rest

end

/-- **The walk in the order of names.** -/
def byName : Walker := fun fs path keep =>
  match fs.find path with
  | .error e => [.error e.message]
  | .ok t => (visits keep path (FileSystem.lastName path) 0 t).map .ok

end Walker

end TypeErasure
