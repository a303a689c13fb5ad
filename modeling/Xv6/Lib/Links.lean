import Mathlib.Tactic

/-!
# Lib — Links

A circular doubly linked list with a head.

A node is `some a` for an element, and `none` for the head.  The two pointers of each node are given
by the functions `next` and `prev`, and the list is changed in place, by storing pointers.

* `Path f x L`: following `f` from `x` leads through the elements of `L` and back to the head.
* `Linked l L`: the list holds the elements of `L`, in this order, each once.
* `linked_unlink`, `linked_linkFront`: taking an element out, and putting one in after the head.
* `scan_eq`: a search along the pointers is a search in `L`.
-/

namespace Xv6.Lib

variable {α : Type}

structure Links (α : Type) where
  next : Option α → Option α
  prev : Option α → Option α

namespace Links

/-- The empty list: the head points to itself. -/
def empty : Links α := ⟨fun _ => none, fun _ => none⟩

/-- `b->next->prev = b->prev; b->prev->next = b->next`. -/
def unlink [DecidableEq α] (l : Links α) (b : α) : Links α :=
  let l := { l with prev := Function.update l.prev (l.next (some b)) (l.prev (some b)) }
  { l with next := Function.update l.next (l.prev (some b)) (l.next (some b)) }

/-- `b->next = head.next; b->prev = &head; head.next->prev = b; head.next = b`. -/
def linkFront [DecidableEq α] (l : Links α) (b : α) : Links α :=
  let l := { l with next := Function.update l.next (some b) (l.next none) }
  let l := { l with prev := Function.update l.prev (some b) none }
  let l := { l with prev := Function.update l.prev (l.next none) (some b) }
  { l with next := Function.update l.next none (some b) }

/-- A loop that follows `f` from `x` until it finds `p` or the head, for at most `n` nodes. -/
def scan (f : Option α → Option α) (p : α → Bool) : Nat → Option α → Option α
  | 0, _ => none
  | _ + 1, none => none
  | n + 1, some b => if p b then some b else scan f p n (f (some b))

/-! ### Paths -/

/-- Following `f` from `x` leads through `L` and then to the head. -/
def Path (f : Option α → Option α) : Option α → List α → Prop
  | x, [] => f x = none
  | x, a :: L => f x = some a ∧ Path f (some a) L

/-- The last node of the path. -/
def endOf : Option α → List α → Option α
  | x, [] => x
  | _, a :: L => endOf (some a) L

variable {f g : Option α → Option α} {x y : Option α} {a b : α} {L L₁ L₂ : List α}

theorem endOf_none : ∀ L : List α, endOf none L = L.getLast?
  | [] => rfl
  | a :: L => by
      rw [endOf, List.getLast?_cons]
      exact endOf_some L a
where
  endOf_some : ∀ (L : List α) (a : α), endOf (some a) L = some (L.getLast?.getD a)
    | [], a => rfl
    | c :: L, a => by
        rw [endOf, endOf_some L c, List.getLast?_cons]
        rfl

theorem endOf_mem : ∀ (L : List α) (x : Option α), endOf x L = x ∨ ∃ a ∈ L, endOf x L = some a
  | [], _ => Or.inl rfl
  | a :: L, x => by
      rcases endOf_mem L (some a) with h | ⟨c, hc, h⟩
      · exact Or.inr ⟨a, List.mem_cons_self, h⟩
      · exact Or.inr ⟨c, List.mem_cons_of_mem a hc, h⟩

theorem path_head (h : Path f x L) : f x = L.head? := by
  cases L with
  | nil => exact h
  | cons a L => exact h.1

/-- A path depends on the pointers of its nodes only. -/
theorem Path.congr (h : Path f x L) (hx : g x = f x) (hL : ∀ a ∈ L, g (some a) = f (some a)) :
    Path g x L := by
  induction L generalizing x with
  | nil => exact hx.trans h
  | cons a L ih =>
      exact ⟨hx.trans h.1, ih h.2 (hL a List.mem_cons_self) fun c hc => hL c (List.mem_cons_of_mem a hc)⟩

theorem Path.after (h : Path f x (L₁ ++ b :: L₂)) : f (some b) = L₂.head? := by
  induction L₁ generalizing x with
  | nil => exact path_head h.2
  | cons a L₁ ih => exact ih h.2

/-- A search along the pointers is a search in the list. -/
theorem scan_eq {p : α → Bool} {n : Nat} (h : Path f x L) (hn : L.length ≤ n) :
    scan f p n (f x) = L.find? p := by
  induction L generalizing x n with
  | nil =>
      rw [show f x = none from h]
      cases n with
      | zero => rfl
      | succ n => rfl
  | cons a L ih =>
      cases n with
      | zero => exact absurd hn (by simp)
      | succ n =>
          rw [h.1, scan, List.find?_cons]
          cases p a with
          | true => rfl
          | false => exact ih h.2 (Nat.le_of_succ_le_succ hn)

/-- The only element that satisfies `p` is found. -/
theorem find?_unique {p : α → Bool} (hb : b ∈ L) (hp : p b = true) (h : ∀ a, p a = true → a = b) :
    L.find? p = some b := by
  obtain ⟨a, ha⟩ := Option.isSome_iff_exists.mp (List.find?_isSome.mpr ⟨b, hb, hp⟩)
  rw [ha, h a (List.find?_some ha)]

/-- A search for fewer elements finds the same one, if it is still searched for. -/
theorem find?_drop {p q : α → Bool} (h : L.find? p = some b) (hqp : ∀ a, q a = true → p a = true)
    (hq : q b = true) : L.find? q = some b := by
  obtain ⟨-, L₁, L₂, rfl, hL₁⟩ := List.find?_eq_some_iff_append.mp h
  refine List.find?_eq_some_iff_append.mpr ⟨hq, L₁, L₂, rfl, fun a ha => ?_⟩
  have hpa := hL₁ a ha
  cases hqa : q a with
  | false => rfl
  | true => rw [hqp a hqa] at hpa; exact hpa

section Updates

variable [DecidableEq α]

theorem find?_erase {p : α → Bool} (hb : ¬ p b = true) : (L.erase b).find? p = L.find? p := by
  induction L with
  | nil => rfl
  | cons a L ih =>
      by_cases ha : a = b
      · subst ha
        rw [List.erase_cons_head, List.find?_cons_of_neg hb]
      · rw [List.erase_cons_tail (by simpa using ha), List.find?_cons, List.find?_cons, ih]

/-- An element is taken out. -/
theorem Path.remove (h : Path f x (L₁ ++ b :: L₂)) (hnd : (L₁ ++ b :: L₂).Nodup)
    (hx : ∀ a ∈ L₁ ++ b :: L₂, x ≠ some a) :
    Path (Function.update f (endOf x L₁) (f (some b))) x (L₁ ++ L₂) := by
  induction L₁ generalizing x with
  | nil =>
      obtain ⟨-, hb⟩ := h
      have hx₂ : ∀ a ∈ L₂, some a ≠ x := fun a ha => (hx a (List.mem_cons_of_mem b ha)).symm
      cases L₂ with
      | nil =>
          show Function.update f x (f (some b)) x = none
          rw [Function.update_self]
          exact hb
      | cons c L₂ =>
          refine ⟨?_, hb.2.congr ?_ fun a ha => ?_⟩
          · show Function.update f x (f (some b)) x = some c
            rw [Function.update_self]
            exact hb.1
          · exact Function.update_of_ne (hx₂ c List.mem_cons_self) ..
          · exact Function.update_of_ne (hx₂ a (List.mem_cons_of_mem c ha)) ..
  | cons a L₁ ih =>
      rw [List.cons_append] at hnd
      obtain ⟨hnotin, hnd⟩ := List.nodup_cons.mp hnd
      have hne : x ≠ endOf (some a) L₁ := by
        rcases endOf_mem L₁ (some a) with he | ⟨c, hc, he⟩
        · rw [he]
          exact hx a List.mem_cons_self
        · rw [he]
          exact hx c (List.mem_cons_of_mem a (List.mem_append_left _ hc))
      refine ⟨(Function.update_of_ne hne ..).trans h.1, ih h.2 hnd fun c hc he => ?_⟩
      cases he
      exact hnotin hc

/-- An element is put in after the head. -/
theorem Path.cons (h : Path f none L) (hb : b ∉ L) :
    Path (Function.update (Function.update f (some b) (f none)) none (some b)) none (b :: L) := by
  refine ⟨Function.update_self .., ?_⟩
  cases L with
  | nil =>
      show Function.update (Function.update f (some b) (f none)) none (some b) (some b) = none
      rw [Function.update_of_ne (Option.some_ne_none b), Function.update_self]
      exact h
  | cons a L =>
      have hne : ∀ c ∈ a :: L, (some c : Option α) ≠ some b := fun c hc he =>
        hb (Option.some.inj he ▸ hc)
      refine ⟨?_, h.2.congr ?_ fun c hc => ?_⟩
      · rw [Function.update_of_ne (Option.some_ne_none b), Function.update_self]
        exact h.1
      · rw [Function.update_of_ne (Option.some_ne_none a),
          Function.update_of_ne (hne a List.mem_cons_self)]
      · rw [Function.update_of_ne (Option.some_ne_none c),
          Function.update_of_ne (hne c (List.mem_cons_of_mem a hc))]

/-- An element is put in before the head. -/
theorem Path.concat (h : Path f x L) (hnd : L.Nodup) (hx : ∀ a ∈ L, x ≠ some a) (hb : b ∉ L)
    (hxb : x ≠ some b) :
    Path (Function.update (Function.update f (some b) none) (endOf x L) (some b)) x (L ++ [b]) := by
  induction L generalizing x with
  | nil =>
      refine ⟨Function.update_self .., ?_⟩
      show Function.update (Function.update f (some b) none) x (some b) (some b) = none
      rw [Function.update_of_ne (Ne.symm hxb), Function.update_self]
  | cons a L ih =>
      obtain ⟨hnotin, hnd⟩ := List.nodup_cons.mp hnd
      have hab : (some a : Option α) ≠ some b := fun he => hb (Option.some.inj he ▸ List.mem_cons_self)
      have hne : x ≠ endOf (some a) L := by
        rcases endOf_mem L (some a) with he | ⟨c, hc, he⟩
        · rw [he]
          exact hx a List.mem_cons_self
        · rw [he]
          exact hx c (List.mem_cons_of_mem a hc)
      refine ⟨?_, ih h.2 hnd (fun c hc he => ?_) (fun hc => hb (List.mem_cons_of_mem a hc)) hab⟩
      · show Function.update (Function.update f (some b) none) (endOf (some a) L) (some b) x = some a
        rw [Function.update_of_ne hne, Function.update_of_ne hxb]
        exact h.1
      · cases he
        exact hnotin hc

end Updates

/-! ### The list -/

/-- The list holds the elements of `L`, in this order and each once. -/
structure Linked (l : Links α) (L : List α) : Prop where
  next : Path l.next none L
  prev : Path l.prev none L.reverse
  nodup : L.Nodup

variable {l : Links α}

theorem linked_empty : Linked (empty : Links α) ([] : List α) := ⟨rfl, rfl, List.nodup_nil⟩

theorem linked_unlink [DecidableEq α] (h : Linked l L) (hb : b ∈ L) : Linked (l.unlink b) (L.erase b) := by
  obtain ⟨L₁, L₂, rfl⟩ := List.append_of_mem hb
  have hnd := h.nodup
  have hnd₁ : b ∉ L₁ := fun hb₁ => (List.disjoint_of_nodup_append hnd) hb₁ List.mem_cons_self
  have herase : (L₁ ++ b :: L₂).erase b = L₁ ++ L₂ := by
    rw [List.erase_append_right _ hnd₁, List.erase_cons_head]
  have hrev : (L₁ ++ b :: L₂).reverse = L₂.reverse ++ b :: L₁.reverse := by
    simp
  have hprev := h.prev
  rw [hrev] at hprev
  have hnext_b : l.next (some b) = L₂.head? := h.next.after
  have hprev_b : l.prev (some b) = L₁.getLast? := by
    rw [hprev.after, List.head?_reverse]
  have hne : (some b : Option α) ≠ l.next (some b) := by
    rw [hnext_b]
    intro he
    have hmem : b ∈ L₂ := List.mem_of_mem_head? (Option.mem_def.mpr he.symm)
    exact (List.nodup_cons.mp (List.nodup_append.mp hnd).2.1).1 hmem
  have hnone : ∀ M : List α, ∀ a ∈ M, (none : Option α) ≠ some a := fun _ a _ =>
    (Option.some_ne_none a).symm
  rw [herase]
  refine ⟨?_, ?_, (List.nodup_append.mp hnd).1.append (List.nodup_cons.mp
    (List.nodup_append.mp hnd).2.1).2 ?_⟩
  · have := h.next.remove hnd (hnone _)
    rw [endOf_none, ← hprev_b] at this
    simpa only [unlink, Function.update_of_ne hne] using this
  · have hnd' := hrev ▸ List.nodup_reverse.mpr hnd
    have := hprev.remove hnd' (hnone _)
    rw [endOf_none, List.getLast?_reverse, ← hnext_b] at this
    rw [List.reverse_append]
    simpa only [unlink] using this
  · intro a ha₁ ha₂
    exact (List.disjoint_of_nodup_append hnd) ha₁ (List.mem_cons_of_mem b ha₂)

theorem linked_linkFront [DecidableEq α] (h : Linked l L) (hb : b ∉ L) : Linked (l.linkFront b) (b :: L) := by
  have hbne : (none : Option α) ≠ some b := (Option.some_ne_none b).symm
  have hhead : l.next none = L.head? := path_head h.next
  refine ⟨h.next.cons hb, ?_, List.nodup_cons.mpr ⟨hb, h.nodup⟩⟩
  have := h.prev.concat (List.nodup_reverse.mpr h.nodup) (fun a _ => (Option.some_ne_none a).symm)
    (fun hc => hb (List.mem_reverse.mp hc)) hbne
  rw [endOf_none, List.getLast?_reverse, ← hhead] at this
  rw [List.reverse_cons]
  simpa only [linkFront, Function.update_of_ne hbne] using this

end Links

end Xv6.Lib
