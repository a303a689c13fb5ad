import Xv6.Fs.Name

/-!
# Fs — Path

`skipelem` and `namex`.

What the inode layer answers is a `Tree`: the type of an inode and the entries of a directory.  An
inode is its number.  A path is the list of its bytes from a pointer on, as in `Fs.Name`.

* `skipelem_spec`: one call takes the first run of the path.
* `namexLoop_namei`, `namexLoop_nameiparent`: the loop follows the runs, or all but the last.
-/

namespace Xv6.Fs
open Xv6.Lib

abbrev ROOTINO : Nat := 1

/-- `'/'` -/
def slash : Byte := 47

/-- A byte of a path element. -/
def inElem (c : Byte) : Bool := decide (c ≠ slash) && decide (c ≠ 0)

/-- The path after the element and the buffer `name`, or `none` for 0. -/
def skipelem (path name : List Byte) : Option (List Byte × List Byte) :=
  let s := path.dropWhile fun c => decide (c = slash)
  if deref s = 0 then none
  else
    let elem := s.takeWhile inElem
    let name :=
      if elem.length ≥ DIRSIZ then elem.take DIRSIZ ++ name.drop DIRSIZ
      else elem ++ 0 :: name.drop (elem.length + 1)
    some ((s.dropWhile inElem).dropWhile fun c => decide (c = slash), name)

structure Tree where
  isDir : Nat → Bool
  entries : Nat → List Dirent

/-- What `dirlookup` finds in a directory. -/
def Tree.dirlookup (tree : Tree) (dp : Nat) (name : List Byte) : Option Nat :=
  (findDirent (tree.entries dp) name).map fun de => de.inum.toNat

/-- The loop of `namex`, with a bound on the turns. -/
def namexLoop (tree : Tree) (parent : Bool) : Nat → Nat → List Byte → List Byte →
    Except String (Option Nat × List Byte)
  | 0, _, _, _ => .error "namex: no turn left"
  | turns + 1, ip, path, name =>
    match skipelem path name with
    | none => .ok (if parent then none else some ip, name)
    | some (path, name) =>
      if !tree.isDir ip then .ok (none, name)
      else if parent = true ∧ deref path = 0 then .ok (some ip, name)
      else
        match tree.dirlookup ip name with
        | none => .ok (none, name)
        | some next => namexLoop tree parent turns next path name

/-- Where a path starts. -/
def namexStart (cwd : Nat) (path : List Byte) : Nat := if deref path = slash then ROOTINO else cwd

/-- The inode, or `none` for 0, and the buffer `name`. -/
def namex (tree : Tree) (cwd : Nat) (path : List Byte) (parent : Bool) (name : List Byte) :
    Except String (Option Nat × List Byte) :=
  namexLoop tree parent (path.length + 1) (namexStart cwd path) path name

/-- `name` is the buffer on the stack. -/
def namei (tree : Tree) (cwd : Nat) (path name : List Byte) : Except String (Option Nat) := do
  let (ip, _) ← namex tree cwd path false name
  return ip

def nameiparent (tree : Tree) (cwd : Nat) (path name : List Byte) :
    Except String (Option Nat × List Byte) := namex tree cwd path true name

/-- What the calls of `skipelem` leave in `name` one after the other, and `none` for 0. -/
def skipelemCalls : Nat → List Byte → List Byte → List (Option (List Byte))
  | 0, _, _ => []
  | turns + 1, path, name =>
    match skipelem path name with
    | none => [none]
    | some (path, name) => some name :: skipelemCalls turns path name

/-! ### Runs of a path -/

variable {path path' name name' run : List Byte} {tree : Tree} {ip : Nat} {turns : Nat}

/-- The maximal slash-free runs of the string. -/
def runs (path : List Byte) : List (List Byte) := pieces slash (cstr path)

/-- `name` holds a run: its first bytes, with a NUL when there is room. -/
structure IsName (name run : List Byte) : Prop where
  long : DIRSIZ ≤ run.length → name.take DIRSIZ = run.take DIRSIZ
  short : run.length < DIRSIZ → name.take (run.length + 1) = run ++ [0]

theorem ne_of_mem_cstr {c : Byte} (h : c ∈ cstr path) : c ≠ 0 := by
  rw [cstr] at h
  simpa using List.mem_takeWhile_imp h

theorem cstr_dropWhile {p : Byte → Bool} (hp : p 0 = false) (s : List Byte) :
    cstr (s.dropWhile p) = (cstr s).dropWhile p := by
  induction s with
  | nil => rfl
  | cons c s ih =>
      by_cases hc : c = 0
      · subst hc
        rw [List.dropWhile_cons_of_neg (by rw [hp]; exact Bool.false_ne_true), cstr_of_end rfl]
        rfl
      · have hcons : cstr (c :: s) = c :: cstr s := cstr_of_ne hc
        by_cases hpc : p c = true
        · rw [List.dropWhile_cons_of_pos hpc, ih, hcons, List.dropWhile_cons_of_pos hpc]
        · rw [List.dropWhile_cons_of_neg hpc, hcons, List.dropWhile_cons_of_neg hpc]

/-- An element of a path is one of its string. -/
theorem takeWhile_inElem (s : List Byte) :
    s.takeWhile inElem = (cstr s).takeWhile fun c => decide (c ≠ slash) := by
  induction s with
  | nil => rfl
  | cons c s ih =>
      by_cases hc : c = 0
      · subst hc
        rw [cstr_of_end rfl, List.takeWhile_cons_of_neg (by decide)]
        rfl
      · have hcons : cstr (c :: s) = c :: cstr s := cstr_of_ne hc
        by_cases hs : c = slash
        · rw [hcons, List.takeWhile_cons_of_neg (by simp [inElem, hs]),
            List.takeWhile_cons_of_neg (by simp [hs])]
        · have helem : inElem c = true := by
            simp only [inElem, ne_eq, hs, hc, not_false_eq_true, decide_true, Bool.and_self]
          rw [hcons, List.takeWhile_cons_of_pos helem, List.takeWhile_cons_of_pos (by simp [hs]), ih]

theorem dropWhile_inElem (s : List Byte) :
    cstr (s.dropWhile inElem) = (cstr s).dropWhile fun c => decide (c ≠ slash) := by
  rw [cstr_dropWhile (by decide)]
  have hall : ∀ c ∈ cstr s, inElem c = decide (c ≠ slash) := by
    intro c hc
    rw [inElem, decide_eq_true (ne_of_mem_cstr hc), Bool.and_true]
  revert hall
  generalize cstr s = l
  intro hall
  induction l with
  | nil => rfl
  | cons c l ih =>
      have hc := hall c (List.mem_cons_self ..)
      rw [List.dropWhile_cons, List.dropWhile_cons, hc,
        ih fun c' hc' => hall c' (List.mem_cons_of_mem c hc')]

/-- A buffer that has been filled with a run. -/
theorem isName_fill (name run : List Byte) : IsName
    (if run.length ≥ DIRSIZ then run.take DIRSIZ ++ name.drop DIRSIZ
      else run ++ 0 :: name.drop (run.length + 1)) run := by
  by_cases hlen : run.length ≥ DIRSIZ
  · rw [if_pos hlen]
    refine ⟨fun _ => ?_, fun hlt => absurd hlen (not_le.mpr hlt)⟩
    rw [List.take_append_of_le_length (by simp [hlen]), List.take_take, Nat.min_self]
  · rw [if_neg hlen]
    refine ⟨fun hle => absurd hle hlen, fun _ => ?_⟩
    simp [List.take_append]

/-- What is left of a path after a separator does not start with one. -/
theorem head_dropWhile_slash (s : List Byte) :
    (cstr (s.dropWhile fun c => decide (c = slash))).head? ≠ some slash := by
  rw [cstr_dropWhile (by decide)]
  intro h
  have := List.head?_dropWhile_not (fun c => decide (c = slash)) (cstr s)
  rw [h] at this
  simp at this

theorem runs_dropWhile (s : List Byte) :
    runs (s.dropWhile fun c => decide (c = slash)) = runs s := by
  rw [runs, cstr_dropWhile (by decide), pieces_dropWhile, runs]

/-- What a call of `skipelem` does. -/
inductive Skipped (path : List Byte) : Option (List Byte × List Byte) → Prop where
  | done (h : runs path = []) : Skipped path none
  | elem (run path' name' : List Byte) (hruns : runs path = run :: runs path')
      (hname : IsName name' run) (hlen : path'.length < path.length)
      (hend : deref path' = 0 ↔ runs path' = []) : Skipped path (some (path', name'))

/-- **`skipelem`** takes the first run of the path. -/
theorem skipelem_spec (path name : List Byte) : Skipped path (skipelem path name) := by
  let s := path.dropWhile fun c => decide (c = slash)
  have hs : runs s = runs path := runs_dropWhile path
  have hhead : (cstr s).head? ≠ some slash := head_dropWhile_slash path
  by_cases h0 : deref s = 0
  · have hskip : skipelem path name = none := if_pos h0
    rw [hskip]
    refine .done ?_
    rw [← hs, runs, cstr_of_end h0, pieces_nil]
  · let rest := (s.dropWhile inElem).dropWhile fun c => decide (c = slash)
    obtain ⟨hne, hpieces⟩ := pieces_span (mt cstr_eq_nil_iff.mp h0) hhead
    rw [← takeWhile_inElem] at hne hpieces
    rw [← dropWhile_inElem] at hpieces
    have hskip : skipelem path name = some (rest,
        if (s.takeWhile inElem).length ≥ DIRSIZ then
          (s.takeWhile inElem).take DIRSIZ ++ name.drop DIRSIZ
        else s.takeWhile inElem ++ 0 :: name.drop ((s.takeWhile inElem).length + 1)) := if_neg h0
    rw [hskip]
    refine .elem (s.takeWhile inElem) _ _ ?_ (isName_fill ..) ?_ ?_
    · have hrest : runs rest = runs (s.dropWhile inElem) := runs_dropWhile _
      rw [← hs, hrest]
      exact hpieces
    · have hsplit := congrArg List.length (List.takeWhile_append_dropWhile (p := inElem) (l := s))
      have hpos := List.length_pos_of_ne_nil hne
      have hle : s.length ≤ path.length := (List.dropWhile_sublist _).length_le
      have hle' : rest.length ≤ (s.dropWhile inElem).length := (List.dropWhile_sublist _).length_le
      rw [List.length_append] at hsplit
      omega
    · rw [runs, pieces_eq_nil_iff (head_dropWhile_slash _), cstr_eq_nil_iff]

/-- The runs hold no NUL. -/
theorem not_mem_run (h : run ∈ runs path) : (0 : Byte) ∉ run :=
  fun h0 => ne_of_mem_cstr (mem_of_mem_piece h h0) rfl

/-- `dirlookup` sees the first bytes of the run. -/
theorem IsName.cname (h : IsName name run) (hrun : (0 : Byte) ∉ run) :
    cname name = run.take DIRSIZ := by
  have hcstr : ∀ {l r : List Byte}, (0 : Byte) ∉ l → cstr (l ++ r) = l ++ cstr r := by
    intro l r hl
    exact List.takeWhile_append_of_pos fun c hc => by
      simpa using fun h0 : c = 0 => hl (h0 ▸ hc)
  by_cases hlen : DIRSIZ ≤ run.length
  · have hnot : (0 : Byte) ∉ run.take DIRSIZ := fun h0 => hrun (List.mem_of_mem_take h0)
    rw [Fs.cname, ← List.take_append_drop DIRSIZ name, h.long hlen, hcstr hnot]
    exact List.take_append_of_le_length (by simp [hlen]) |>.trans (by rw [List.take_take, Nat.min_self])
  · have hlt := not_le.mp hlen
    rw [Fs.cname, ← List.take_append_drop (run.length + 1) name, h.short hlt, List.append_assoc,
      hcstr hrun, List.singleton_append, cstr_of_end rfl, List.append_nil]

/-! ### Where a path leads -/

/-- The inode that a directory has under a name. -/
def Tree.find (tree : Tree) (dp : Nat) (n : List Byte) : Option Nat :=
  ((tree.entries dp).find? fun de => decide (de.inum ≠ 0) && decide (cname de.name = n)).map
    fun de => de.inum.toNat

/-- Where runs lead from `ip`; a run is known by its first `DIRSIZ` bytes. -/
def Tree.resolve (tree : Tree) : Nat → List (List Byte) → Option Nat
  | ip, [] => some ip
  | ip, run :: rs =>
    if tree.isDir ip then (tree.find ip (run.take DIRSIZ)).bind fun next => tree.resolve next rs
    else none

/-- The runs lead to a directory. -/
def Tree.Reaches (tree : Tree) (ip : Nat) (rs : List (List Byte)) (dp : Nat) : Prop :=
  tree.resolve ip rs = some dp ∧ tree.isDir dp = true

theorem dirlookup_name (h : IsName name run) (hrun : (0 : Byte) ∉ run) (tree : Tree) (dp : Nat) :
    tree.dirlookup dp name = tree.find dp (run.take DIRSIZ) := by
  rw [Tree.dirlookup, findDirent_eq, h.cname hrun, Tree.find]

/-- Runs that lead somewhere do so through a directory. -/
theorem reaches_of_resolve {r : List Byte} {rs rs' : List (List Byte)} {q : Nat}
    (h : tree.resolve ip (rs ++ r :: rs') = some q) : ∃ dp, tree.Reaches ip rs dp := by
  induction rs generalizing ip with
  | nil =>
      rw [List.nil_append, Tree.resolve] at h
      by_cases hdir : tree.isDir ip = true
      · exact ⟨ip, rfl, hdir⟩
      · rw [if_neg hdir] at h
        cases h
  | cons run rs ih =>
      rw [List.cons_append, Tree.resolve] at h
      by_cases hdir : tree.isDir ip = true
      · rw [if_pos hdir] at h
        obtain ⟨next, hnext, h⟩ := Option.bind_eq_some_iff.mp h
        obtain ⟨dp, hdp, hd⟩ := ih h
        refine ⟨dp, ?_, hd⟩
        rw [Tree.resolve, if_pos hdir, hnext]
        exact hdp
      · rw [if_neg hdir] at h
        cases h

/-- Nothing is reached from what is not a directory. -/
theorem not_reaches (hdir : ¬ tree.isDir ip = true) (rs : List (List Byte)) (dp : Nat) :
    ¬ tree.Reaches ip rs dp := by
  rintro ⟨hres, hdp⟩
  cases rs with
  | nil =>
      cases hres
      exact hdir hdp
  | cons run rs =>
      rw [Tree.resolve, if_neg hdir] at hres
      cases hres

theorem namexLoop_succ (parent : Bool) (path name : List Byte) :
    namexLoop tree parent (turns + 1) ip path name =
      match skipelem path name with
      | none => .ok (if parent then none else some ip, name)
      | some (path, name) =>
        if !tree.isDir ip then .ok (none, name)
        else if parent = true ∧ deref path = 0 then .ok (some ip, name)
        else
          match tree.dirlookup ip name with
          | none => .ok (none, name)
          | some next => namexLoop tree parent turns next path name := rfl

/-- **`namei`** follows all runs. -/
theorem namexLoop_namei : ∀ (turns ip : Nat) (path name : List Byte), path.length < turns →
    ∃ name', namexLoop tree false turns ip path name = .ok (tree.resolve ip (runs path), name') := by
  intro turns
  induction turns with
  | zero => exact fun _ _ _ hlt => absurd hlt (Nat.not_lt_zero _)
  | succ turns ih =>
      intro ip path name hlt
      rw [namexLoop_succ]
      cases hskip : skipelem path name with
      | none =>
          cases hskip ▸ skipelem_spec path name with
          | done h => exact ⟨name, by rw [h]; rfl⟩
      | some x =>
          cases hskip ▸ skipelem_spec path name with
          | elem run path' name' hruns hname hlen hend =>
              have hrun : (0 : Byte) ∉ run := not_mem_run (hruns ▸ List.mem_cons_self ..)
              simp only [hruns, Tree.resolve, Bool.false_eq_true, false_and, if_false,
                dirlookup_name hname hrun]
              by_cases hdir : tree.isDir ip = true
              · simp only [hdir, Bool.not_true, Bool.false_eq_true, if_false, if_true]
                cases tree.find ip (run.take DIRSIZ) with
                | none => exact ⟨name', rfl⟩
                | some next => exact ih next path' name' (by omega)
              · simp only [hdir, Bool.not_false, if_true, Bool.false_eq_true, if_false]
                exact ⟨name', rfl⟩

/-- What `nameiparent` returns for the runs `rs`. -/
inductive ParentOf (tree : Tree) (ip : Nat) (rs : List (List Byte)) :
    Option Nat → List Byte → Prop where
  | found (dp : Nat) (name run : List Byte) (init : List (List Byte)) (hrs : rs = init ++ [run])
      (hdp : tree.Reaches ip init dp) (hname : IsName name run) : ParentOf tree ip rs (some dp) name
  | empty (name : List Byte) (hrs : rs = []) : ParentOf tree ip rs none name
  | lost (name run : List Byte) (init : List (List Byte)) (hrs : rs = init ++ [run])
      (hnot : ∀ dp, ¬ tree.Reaches ip init dp) : ParentOf tree ip rs none name

/-- One run more in front. -/
theorem ParentOf.cons {next : Nat} {r : List Byte} {rs : List (List Byte)} {res : Option Nat}
    (hdir : tree.isDir ip = true) (hnext : tree.find ip (r.take DIRSIZ) = some next)
    (hne : rs ≠ []) (h : ParentOf tree next rs res name) : ParentOf tree ip (r :: rs) res name := by
  have hstep : ∀ init, tree.resolve ip (r :: init) = tree.resolve next init := fun init => by
    rw [Tree.resolve, if_pos hdir, hnext]
    rfl
  cases h with
  | found dp _ run init hrs hdp hname =>
      refine .found dp name run (r :: init) (by rw [hrs]; rfl) ⟨?_, hdp.2⟩ hname
      rw [hstep]
      exact hdp.1
  | empty _ hrs => exact absurd hrs hne
  | lost _ run init hrs hnot =>
      refine .lost name run (r :: init) (by rw [hrs]; rfl) fun dp hdp => hnot dp ⟨?_, hdp.2⟩
      rw [← hstep]
      exact hdp.1

/-- **`nameiparent`** stops one run early. -/
theorem namexLoop_nameiparent : ∀ (turns ip : Nat) (path name : List Byte), path.length < turns →
    ∃ res name', namexLoop tree true turns ip path name = .ok (res, name') ∧
      ParentOf tree ip (runs path) res name' := by
  intro turns
  induction turns with
  | zero => exact fun _ _ _ hlt => absurd hlt (Nat.not_lt_zero _)
  | succ turns ih =>
      intro ip path name hlt
      rw [namexLoop_succ]
      cases hskip : skipelem path name with
      | none =>
          cases hskip ▸ skipelem_spec path name with
          | done h => exact ⟨none, name, rfl, .empty name h⟩
      | some x =>
          cases hskip ▸ skipelem_spec path name with
          | elem run path' name' hruns hname hlen hend =>
              have hrun : (0 : Byte) ∉ run := not_mem_run (hruns ▸ List.mem_cons_self ..)
              simp only [true_and, dirlookup_name hname hrun]
              by_cases hdir : tree.isDir ip = true
              · simp only [hdir, Bool.not_true, Bool.false_eq_true, if_false]
                by_cases hlast : deref path' = 0
                · refine ⟨some ip, name', if_pos hlast, .found ip name' run [] ?_ ⟨rfl, hdir⟩ hname⟩
                  rw [hruns, hend.mp hlast]
                  rfl
                · have hne : runs path' ≠ [] := fun h => hlast (hend.mpr h)
                  rw [if_neg hlast]
                  cases hfind : tree.find ip (run.take DIRSIZ) with
                  | none =>
                      obtain ⟨init, last, hinit⟩ := List.eq_nil_or_concat' (runs path') |>.resolve_left hne
                      refine ⟨none, name', rfl, .lost name' last (run :: init) ?_ fun dp hdp => ?_⟩
                      · rw [hruns, hinit]
                        rfl
                      · have := hdp.1
                        rw [Tree.resolve, if_pos hdir, hfind] at this
                        cases this
                  | some next =>
                      obtain ⟨res, name₂, hrun₂, hpar⟩ := ih next path' name' (by omega)
                      refine ⟨res, name₂, hrun₂, ?_⟩
                      rw [hruns]
                      exact hpar.cons hdir hfind hne
              · simp only [hdir, Bool.not_false, if_true]
                refine ⟨none, name', rfl, ?_⟩
                have hne : runs path ≠ [] := by
                  rw [hruns]
                  exact List.cons_ne_nil run _
                obtain ⟨init, last, hinit⟩ := List.eq_nil_or_concat' (runs path) |>.resolve_left hne
                exact .lost name' last init hinit fun dp => not_reaches hdir init dp

/-- The calls of `skipelem` take the runs one by one. -/
theorem skipelemCalls_spec : ∀ (turns : Nat) (path name : List Byte), path.length < turns →
    ∃ names, skipelemCalls turns path name = names.map some ++ [none] ∧
      List.Forall₂ IsName names (runs path) := by
  intro turns
  induction turns with
  | zero => exact fun _ _ hlt => absurd hlt (Nat.not_lt_zero _)
  | succ turns ih =>
      intro path name hlt
      rw [skipelemCalls]
      cases hskip : skipelem path name with
      | none =>
          cases hskip ▸ skipelem_spec path name with
          | done h =>
              refine ⟨[], rfl, ?_⟩
              rw [h]
              exact .nil
      | some x =>
          cases hskip ▸ skipelem_spec path name with
          | elem run path' name' hruns hname hlen hend =>
              obtain ⟨names, hcalls, hall⟩ := ih path' name' (by omega)
              refine ⟨name' :: names, ?_, ?_⟩
              · simp only [hcalls]
                rfl
              · rw [hruns]
                exact .cons hname hall

/-- A path that leads nowhere has a first run that does not lead to a directory. -/
theorem lost_iff {init : List (List Byte)} (hdir : tree.isDir ip = true) :
    (∀ dp, ¬ tree.Reaches ip init dp) ↔
      ∃ pre r post, init = pre ++ r :: post ∧ ∀ dp, ¬ tree.Reaches ip (pre ++ [r]) dp := by
  constructor
  · intro hnot
    rcases List.eq_nil_or_concat' init with rfl | ⟨pre, r, rfl⟩
    · exact absurd ⟨rfl, hdir⟩ (hnot ip)
    · exact ⟨pre, r, [], rfl, hnot⟩
  · rintro ⟨pre, r, post, rfl, hnot⟩ dp hdp
    cases post with
    | nil => exact hnot dp hdp
    | cons r' post =>
        have hres : tree.resolve ip ((pre ++ [r]) ++ r' :: post) = some dp := by
          rw [List.append_assoc]
          exact hdp.1
        obtain ⟨q, hq⟩ := reaches_of_resolve hres
        exact hnot q hq

/-- **Path splitting.**  The calls of `skipelem` give the maximal slash-free runs of the path, each in
`name`, and then 0.  `namei` follows them all.  `nameiparent` follows all but the last, which it
leaves in `name`, and returns 0 exactly when there is no run or one before the last does not lead to
a directory.  The root and the working directory are directories. -/
theorem path_splitting (tree : Tree) (cwd : Nat) (path name : List Byte)
    (hroot : tree.isDir ROOTINO = true) (hcwd : tree.isDir cwd = true) :
    (∃ names, skipelemCalls (path.length + 1) path name = names.map some ++ [none] ∧
      List.Forall₂ IsName names (runs path)) ∧
    namei tree cwd path name = .ok (tree.resolve (namexStart cwd path) (runs path)) ∧
    ∃ res name', nameiparent tree cwd path name = .ok (res, name') ∧
      (∀ dp, res = some dp → ∃ init run, runs path = init ++ [run] ∧
        tree.Reaches (namexStart cwd path) init dp ∧ IsName name' run) ∧
      (res = none ↔ runs path = [] ∨ ∃ pre r post, runs path = pre ++ r :: post ∧ post ≠ [] ∧
        ∀ dp, ¬ tree.Reaches (namexStart cwd path) (pre ++ [r]) dp) := by
  have hstart : tree.isDir (namexStart cwd path) = true := by
    rw [namexStart]
    by_cases h : deref path = slash
    · rwa [if_pos h]
    · rwa [if_neg h]
  refine ⟨skipelemCalls_spec _ path name (Nat.lt_succ_self _), ?_, ?_⟩
  · obtain ⟨name', hrun⟩ := namexLoop_namei (path.length + 1) (namexStart cwd path) path name
      (Nat.lt_succ_self _)
    rw [namei, namex, hrun]
    rfl
  · obtain ⟨res, name', hrun, hpar⟩ := namexLoop_nameiparent (path.length + 1) (namexStart cwd path)
      path name (Nat.lt_succ_self _)
    refine ⟨res, name', hrun, fun dp hres => ?_, ?_⟩
    · cases hpar with
      | found q _ run init hrs hdp hname =>
          cases hres
          exact ⟨init, run, hrs, hdp, hname⟩
      | empty _ hrs => cases hres
      | lost _ run init hrs hnot => cases hres
    · cases hpar with
      | found q _ run init hrs hdp hname =>
          refine ⟨fun hres => absurd hres (Option.some_ne_none q), fun hbad => ?_⟩
          rcases hbad with hnil | ⟨pre, r, post, heq, hpost, hnot⟩
          · rw [hrs] at hnil
            exact absurd hnil (by simp)
          · obtain ⟨post', last, rfl⟩ := (List.eq_nil_or_concat' post).resolve_left hpost
            have hinit : init = pre ++ r :: post' := by
              rw [hrs, ← List.cons_append, ← List.append_assoc] at heq
              exact (List.append_inj' heq rfl).1
            exact absurd hdp ((lost_iff hstart).mpr ⟨pre, r, post', hinit, hnot⟩ q)
      | empty _ hrs => exact ⟨fun _ => Or.inl hrs, fun _ => rfl⟩
      | lost _ run init hrs hnot =>
          refine ⟨fun _ => Or.inr ?_, fun _ => rfl⟩
          obtain ⟨pre, r, post, rfl, hno⟩ := (lost_iff hstart).mp hnot
          exact ⟨pre, r, post ++ [run], by rw [hrs, List.append_assoc]; rfl, by simp, hno⟩

/-- The root with a directory 2 under the name "a". -/
def smallTree : Tree where
  isDir i := decide (i = 1 ∨ i = 2)
  entries i := if i = 1 then [⟨2, 97 :: List.replicate 13 0⟩] else []

/-- "//a/b" -/
def smallPath : List Byte := [47, 47, 97, 47, 98]

example : nameiparent smallTree 1 smallPath (List.replicate DIRSIZ 0) =
    .ok (some 2, 98 :: List.replicate 13 0) := by decide

theorem path_splitting_small :
    (∃ names, skipelemCalls (smallPath.length + 1) smallPath (List.replicate DIRSIZ 0) = names.map some ++ [none] ∧
      List.Forall₂ IsName names (runs smallPath)) ∧
    namei smallTree 1 smallPath (List.replicate DIRSIZ 0) =
      .ok (smallTree.resolve (namexStart 1 smallPath) (runs smallPath)) ∧
    ∃ res name', nameiparent smallTree 1 smallPath (List.replicate DIRSIZ 0) = .ok (res, name') ∧
      ∀ dp, res = some dp → ∃ init run, runs smallPath = init ++ [run] ∧
        smallTree.Reaches (namexStart 1 smallPath) init dp ∧ IsName name' run := by
  obtain ⟨hskip, hnamei, res, name', hparent, hfound, -⟩ :=
    path_splitting smallTree 1 smallPath (List.replicate DIRSIZ 0) (by decide) (by decide)
  exact ⟨hskip, hnamei, res, name', hparent, hfound⟩

end Xv6.Fs
