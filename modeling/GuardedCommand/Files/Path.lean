/-! # Paths

A path is a text of names between slashes. Empty names and dots inside a path do not count.

* `parentPath?`: the path without its last name.
* `ancestorPaths`: a path, its parent, and so on.
* `joinPath`: a name below a path.
* `fileStem`, `fileExtension?`: the parts of a file name before and after its last dot.
-/

namespace GuardedCommand

/-- The characters of a path, last one first, without slashes and dots at the end. A slash alone is
the root, and stays. -/
def trimPath : List Char → List Char
  | ['/'] => ['/']
  | '/' :: cs => trimPath cs
  | '.' :: '/' :: cs => trimPath ('/' :: cs)
  | cs => cs

/-- A path without the separators at its end is not longer. -/
theorem length_trimPath_le (cs : List Char) : (trimPath cs).length ≤ cs.length := by
  fun_induction trimPath cs with
  | case1 => exact Nat.le_refl _
  | case2 cs _ ih => exact Nat.le_succ_of_le ih
  | case3 cs ih => exact Nat.le_succ_of_le ih
  | case4 => exact Nat.le_refl _

/-- The characters of the parent of a path, both last one first. The root and the empty path have
none. -/
def parentChars? (cs : List Char) : Option (List Char) :=
  match trimPath cs with
  | [] => none
  | ['/'] => none
  | _ :: rest => some (trimPath (rest.dropWhile (· ≠ '/')))

/-- The path of the parent is shorter, so the way up comes to an end. -/
theorem length_lt_of_parentChars? {cs rest : List Char} (h : parentChars? cs = some rest) :
    rest.length < cs.length := by
  have hcs := length_trimPath_le cs
  unfold parentChars? at h
  split at h
  · cases h
  · cases h
  · rename_i c tail _ heq
    simp only [Option.some.injEq] at h
    have hdrop := (List.dropWhile_suffix (l := tail) (· ≠ '/')).length_le
    have htrim := length_trimPath_le (tail.dropWhile (· ≠ '/'))
    rw [← h]
    rw [heq, List.length_cons] at hcs
    omega

/-- The parent of a path. -/
def parentPath? (path : String) : Option String :=
  (parentChars? path.toList.reverse).map fun cs => String.ofList cs.reverse

/-- The characters of a path and of all above it, each last one first. -/
def ancestorChars (cs : List Char) : List (List Char) :=
  match h : parentChars? cs with
  | none => [cs]
  | some rest =>
    have := length_lt_of_parentChars? h
    cs :: ancestorChars rest
termination_by cs.length

/-- A path and all above it. -/
def ancestorPaths (path : String) : List String :=
  (ancestorChars path.toList.reverse).map fun cs => String.ofList cs.reverse

/-- Whether a path starts at the root. -/
def isAbsolutePath (path : String) : Bool :=
  path.toList.head? == some '/'

/-- A path below another one; an absolute path stands for itself. -/
def joinPath (base path : String) : String :=
  if isAbsolutePath path then path
  else
    match base.toList.getLast? with
    | none | some '/' => base ++ path
    | some _ => base ++ "/" ++ path

/-- The parts of a file name before and after its last dot. A dot at the start does not count. -/
def splitFileName (name : String) : String × Option String :=
  let reversed := name.toList.reverse
  let after := reversed.takeWhile (· ≠ '.')
  match reversed.dropWhile (· ≠ '.') with
  | '.' :: c :: before =>
    if name = ".." then (name, none)
    else (String.ofList (c :: before).reverse, some (String.ofList after.reverse))
  | _ => (name, none)

/-- The part of a file name before its last dot. -/
def fileStem (name : String) : String := (splitFileName name).1

/-- The part of a file name after its last dot. -/
def fileExtension? (name : String) : Option String := (splitFileName name).2

end GuardedCommand
