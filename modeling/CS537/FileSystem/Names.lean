import CS537.FileSystem.Directories
import CS537.Foundation.Tokens

/-!
# Path names

`namex` walks a path one element after the other.  When an element leads to a symbolic link, it
calls itself on the target of the link, which is read into a buffer of 512 bytes, and goes on with
the inode that the call returns, which is null when the target does not resolve.  The recursion is
bounded by fuel: each iteration and each nested call takes one unit.
-/

namespace CS537.FileSystem

open Foundation

def slash : UInt8 := 47

def isSlash (b : UInt8) : Bool := b == slash

/-- The first element of a path, cut to `DIRSIZ` bytes, and the path behind it without leading
slashes. -/
def skipelem (path : List UInt8) : Option (List UInt8 × List UInt8) :=
  match path.dropWhile isSlash with
  | [] => none
  | s => some ((s.takeWhile (!isSlash ·)).take DIRSIZ,
      (s.dropWhile (!isSlash ·)).dropWhile isSlash)

/-- `sizeof(buf)` in `namex` -/
def sizeofBuf : ℕ := 512

/-- The string that `namex` reads from a symbolic link, if it fits into `buf`. -/
def linkTarget (next : Inode) : Option CString :=
  if sizeofBuf ≤ next.size then none
  else
    match readi next 0 next.size with
    | none => none
    | some buf => if buf.length ≠ next.size then none else some (.ofBytes buf)

/-- Assigns the global `is_sym`. -/
def setIsSym (b : Bool) : Kernel Unit := fun s ↦ .ok ((), { s with isSym := b })

/-- The inode at which `namex` starts; `root` stands for the null pointer when it is `none`. -/
def namexStart (root : Option Inum) (path : List UInt8) : Kernel Inum := do
  setIsSym false
  if path.head? = some slash then
    iget ROOTINO
  else
    match root with
    | some ip => idup ip
    | none => fun s ↦ idup s.cwd s

/-- How an iteration of the loop of `namex` ends: the call returns, or the walk goes on. -/
inductive Iteration
  | exit (ip : Option Inum)
  | next (ip : Option Inum)

/-- The body of the loop of `namex` when the element has been found in the directory `ip`, which is
still locked: a symbolic link is resolved by `walk`. -/
def namexFound (walk : Option Inum → CString → Kernel (Option Inum)) (ip next : Inum) :
    Kernel Iteration := do
  iunlock ip
  let next ← ilock (some next)
  let inode ← fields next
  if inode.type = .sym then
    match linkTarget inode with
    | none =>
      iunlockput next
      iput ip
      return .exit none
    | some buf =>
      iunlockput next
      let next ← walk (some ip) buf
      setIsSym true
      iput ip
      return .next next
  else
    iunlock next
    iput ip
    return .next (some next)

/-- The body of the loop of `namex` for one path element; `last` says that the inode that holds the
element is asked for. -/
def namexBody (walk : Option Inum → CString → Kernel (Option Inum)) (ip : Option Inum)
    (name : List UInt8) (last : Bool) : Kernel Iteration := do
  let ip ← ilock ip
  let dp ← fields ip
  if dp.type ≠ .dir then
    iunlockput ip
    return .exit none
  else if last then
    iunlock ip
    return .exit (some ip)
  else
    match ← dirlookup ip name with
    | none =>
      iunlockput ip
      return .exit none
    | some (next, _) => namexFound walk ip next

/-- The loop of `namex` and what follows it.  `name` is what the last call of `skipelem` has
stored. -/
def namexLoop : ℕ → Option Inum → List UInt8 → List UInt8 → Bool →
    Kernel (Option Inum × List UInt8)
  | 0, _, _, _, _ => throw .outOfFuel
  | fuel + 1, ip, path, name, nameiparent =>
    match skipelem path with
    | none =>
      if nameiparent then do
        match ip with
        | none => throw .nullPointer
        | some ip =>
          iput ip
          return (none, name)
      else
        return (ip, name)
    | some (name, path) => do
      -- namex(root, buf, 0, tname)
      let walk := fun root buf ↦ do
        let start ← namexStart root buf.bytes
        let (next, _) ← namexLoop fuel (some start) buf.bytes [] false
        return next
      match ← namexBody walk ip name (nameiparent && path.isEmpty) with
      | .exit ip => return (ip, name)
      | .next ip => namexLoop fuel ip path name nameiparent

def namex (fuel : ℕ) (root : Option Inum) (path : CString) (nameiparent : Bool) :
    Kernel (Option Inum × List UInt8) := do
  let ip ← namexStart root path.bytes
  namexLoop fuel (some ip) path.bytes [] nameiparent

def namei (fuel : ℕ) (path : CString) : Kernel (Option Inum) := do
  let (ip, _) ← namex fuel none path false
  return ip

def nameiparent (fuel : ℕ) (path : CString) : Kernel (Option Inum × List UInt8) :=
  namex fuel none path true

/-- What the recursive call of `namex` returns. -/
def walk (fuel : ℕ) (root : Option Inum) (buf : CString) : Kernel (Option Inum) := do
  let start ← namexStart root buf.bytes
  let (next, _) ← namexLoop fuel (some start) buf.bytes [] false
  return next

theorem namexLoop_end {fuel : ℕ} {ip : Option Inum} {path name : List UInt8}
    (h : skipelem path = none) :
    namexLoop (fuel + 1) ip path name false = pure (ip, name) := by
  rw [namexLoop.eq_def]
  simp only [h]
  rfl

theorem namexLoop_element {fuel : ℕ} {ip : Option Inum} {path name elem rest : List UInt8}
    {nameiparent : Bool} (h : skipelem path = some (elem, rest)) :
    namexLoop (fuel + 1) ip path name nameiparent =
      namexBody (walk fuel) ip elem (nameiparent && rest.isEmpty) >>= fun
        | .exit ip => pure (ip, elem)
        | .next ip => namexLoop fuel ip rest elem nameiparent := by
  rw [namexLoop.eq_def]
  simp only [h]
  rfl

/-! ## Elements of paths -/

/-- The names in a path. -/
def components (path : List UInt8) : List CString := (tokens isSlash path).map nameOf

theorem tokens_skipelem (path : List UInt8) :
    (tokens isSlash path).map (·.take DIRSIZ) = match skipelem path with
      | none => []
      | some (name, rest) => name :: (tokens isSlash rest).map (·.take DIRSIZ) := by
  rw [tokens_eq_strtok, strtok, skipelem]
  cases hs : path.dropWhile isSlash with
  | nil => rfl
  | cons c s =>
    simp only [List.map_cons]
    congr 2
    rw [tokens_dropWhile]
    cases hd : (c :: s).dropWhile (!isSlash ·) with
    | nil => rfl
    | cons d ds =>
      have hhead := List.head?_dropWhile_not (!isSlash ·) (c :: s)
      rw [List.tail_cons, tokens_cons_sep]
      simpa [hd] using hhead

theorem components_eq_map (path : List UInt8) :
    components path = ((tokens isSlash path).map (·.take DIRSIZ)).map nameOf := by
  simp [components]

theorem skipelem_of_nil {path : List UInt8} (h : components path = []) : skipelem path = none := by
  have hskip := tokens_skipelem path
  cases hs : skipelem path with
  | none => rfl
  | some r =>
    rw [components_eq_map, hskip, hs] at h
    simp at h

theorem exists_skipelem {path : List UInt8} {c : CString} {cs : List CString}
    (h : components path = c :: cs) :
    ∃ name rest, skipelem path = some (name, rest) ∧ nameOf name = c ∧ components rest = cs := by
  have hskip := tokens_skipelem path
  rw [components_eq_map] at h
  cases hs : skipelem path with
  | none => simp [hskip, hs] at h
  | some r =>
    obtain ⟨name, rest⟩ := r
    rw [hskip, hs] at h
    simp only [List.map_cons, List.cons.injEq, ← components_eq_map] at h
    exact ⟨name, rest, rfl, h⟩

/-! ## Fuel -/

theorem namexFound_below {walk walk' : Option Inum → CString → Kernel (Option Inum)}
    (h : ∀ root buf, Below .outOfFuel (walk root buf) (walk' root buf)) (ip next : Inum) :
    Below .outOfFuel (namexFound walk ip next) (namexFound walk' ip next) := by
  refine .bind (.refl _ _) fun _ ↦ .bind (.refl _ _) fun next ↦ .bind (.refl _ _) fun inode ↦ ?_
  by_cases hsym : inode.type = .sym
  · simp only [if_pos hsym]
    cases linkTarget inode with
    | none => exact .refl _ _
    | some buf => exact .bind (.refl _ _) fun _ ↦ .bind (h _ _) fun _ ↦ .refl _ _
  · simpa only [if_neg hsym] using .refl _ _

theorem namexBody_below {walk walk' : Option Inum → CString → Kernel (Option Inum)}
    (h : ∀ root buf, Below .outOfFuel (walk root buf) (walk' root buf)) (ip : Option Inum)
    (name : List UInt8) (last : Bool) :
    Below .outOfFuel (namexBody walk ip name last) (namexBody walk' ip name last) := by
  refine .bind (.refl _ _) fun ip ↦ .bind (.refl _ _) fun dp ↦ ?_
  by_cases hdir : dp.type ≠ .dir
  · simpa only [if_pos hdir] using .refl _ _
  · simp only [if_neg hdir]
    cases last with
    | true => simpa only [if_true] using .refl _ _
    | false =>
      refine .bind (.refl _ _) fun found ↦ ?_
      cases found with
      | none => exact .refl _ _
      | some next => exact namexFound_below h ip next.1

theorem walk_below {fuel fuel' : ℕ}
    (h : ∀ ip path name, Below .outOfFuel (namexLoop fuel ip path name false)
      (namexLoop fuel' ip path name false)) (root : Option Inum) (buf : CString) :
    Below .outOfFuel (walk fuel root buf) (walk fuel' root buf) := by
  unfold walk
  exact .bind (.refl _ _) fun start ↦ .bind (h _ _ _) fun _ ↦ .refl _ _

/-- More fuel does not change what the walk returns. -/
theorem namexLoop_succ (fuel : ℕ) (ip : Option Inum) (path name : List UInt8)
    (nameiparent : Bool) :
    Below .outOfFuel (namexLoop fuel ip path name nameiparent)
      (namexLoop (fuel + 1) ip path name nameiparent) := by
  induction fuel generalizing ip path name nameiparent with
  | zero => exact .of_giveUp fun _ ↦ rfl
  | succ fuel ih =>
    cases h : skipelem path with
    | none =>
      have hsame : namexLoop (fuel + 1 + 1) ip path name nameiparent =
          namexLoop (fuel + 1) ip path name nameiparent := by
        rw [namexLoop.eq_def, namexLoop.eq_def]
        simp only [h]
      rw [hsame]
      exact .refl _ _
    | some r =>
      rw [namexLoop_element h, namexLoop_element h]
      refine .bind (namexBody_below (fun root buf ↦ ?_) _ _ _) fun step ↦ ?_
      · exact walk_below (fun ip path name ↦ ih ip path name false) root buf
      · cases step with
        | exit ip => exact .refl _ _
        | next ip => exact ih _ _ _ _

theorem namexLoop_le {fuel fuel' : ℕ} (h : fuel ≤ fuel') (ip : Option Inum)
    (path name : List UInt8) (nameiparent : Bool) :
    Below .outOfFuel (namexLoop fuel ip path name nameiparent)
      (namexLoop fuel' ip path name nameiparent) := by
  induction h with
  | refl => exact .refl _ _
  | step _ ih => exact ih.trans (namexLoop_succ _ _ _ _ _)

theorem walk_le {fuel fuel' : ℕ} (h : fuel ≤ fuel') (root : Option Inum) (buf : CString) :
    Below .outOfFuel (walk fuel root buf) (walk fuel' root buf) :=
  walk_below (fun _ _ _ ↦ namexLoop_le h _ _ _ _) root buf

end CS537.FileSystem
