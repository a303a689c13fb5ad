import Xv6.Bcache.Defs

/-!
# Bcache — Coherence

Whatever the processes do, the cache returns what the last holder has left in a block.

* `Counted s U`: `refcnt` is the number of uses of the buffer and of its pins, and the lock is held
  by a use that has it.
* `Placed s L`: the LRU list is `L` and has every buffer, and the buffer that `bget` finds for a key
  is the only one that has been used for it.
* `Fresh s m`: valid contents are those of `m`, and the disk has those of every block that is not
  dirty.
* `cacheStep_coherent`: the three together, and that every use has the block it has asked for, are an
  invariant of the cache.
-/

namespace Xv6.Bcache
open Xv6.Lib

variable {s s' : Cache} {U : BufId → Finset Nat} {L : List BufId} {b c : BufId} {t : Nat} {u : Use}
  {x : Buf} {dev blockno : BitVec 32} {m : Key → Data}

/-! ### Updates -/

@[simp] theorem setBuf_buf_self (s : Cache) (b : BufId) (x : Buf) : (setBuf s b x).buf b = x :=
  Function.update_self ..

theorem setBuf_buf_ne (s : Cache) (x : Buf) (h : c ≠ b) : (setBuf s b x).buf c = s.buf c :=
  Function.update_of_ne h ..

@[simp] theorem setUse_use_self (s : Cache) (t : Nat) (u : Use) : (setUse s t u).use t = u :=
  Function.update_self ..

theorem setUse_use_ne (s : Cache) (u : Use) {t' : Nat} (h : t' ≠ t) :
    (setUse s t u).use t' = s.use t' :=
  Function.update_of_ne h ..

@[simp] theorem setUse_buf (s : Cache) (t : Nat) (u : Use) : (setUse s t u).buf = s.buf := rfl

@[simp] theorem setBuf_use (s : Cache) (b : BufId) (x : Buf) : (setBuf s b x).use = s.use := rfl

/-! ### Reference counts and locks -/

theorem toNat_add_one {n : BitVec 32} (h : n + 1 ≠ 0) : (n + 1).toNat = n.toNat + 1 := by
  bv_omega

theorem toNat_sub_one {n : BitVec 32} (h : n ≠ 0) : (n - 1).toNat = n.toNat - 1 := by
  bv_omega

/-- The buffer that a use has a reference to. -/
def Use.on : Use → Option BufId
  | .idle => none
  | .acquiring b => some b
  | .locked b => some b
  | .holding b => some b
  | .releasing b => some b

/-- The use has the lock of the buffer. -/
def Use.owns (u : Use) (b : BufId) : Prop := u = .locked b ∨ u = .holding b

/-- `U b` are the uses of `b`. -/
structure Counted (s : Cache) (U : BufId → Finset Nat) : Prop where
  users : ∀ b t, t ∈ U b ↔ (s.use t).on = some b
  refcnt : ∀ b, (s.buf b).refcnt.toNat = (U b).card + s.pins b
  lock : ∀ b t, (s.buf b).lock = some t ↔ (s.use t).owns b

theorem Use.owns.on (h : u.owns b) : u.on = some b := by
  rcases h with rfl | rfl
  · rfl
  · rfl

theorem Counted.used (h : Counted s U) (ht : (s.use t).on = some b) : (s.buf b).refcnt ≠ 0 := by
  intro hz
  have hcard := h.refcnt b
  rw [hz] at hcard
  have hpos : 0 < (U b).card := Finset.card_pos.mpr ⟨t, (h.users b t).mpr ht⟩
  have hsum : (U b).card + s.pins b = 0 := hcard.symm
  omega

/-- A buffer without references. -/
theorem Counted.unused (h : Counted s U) (hz : (s.buf b).refcnt = 0) :
    U b = ∅ ∧ s.pins b = 0 ∧ (s.buf b).lock = none := by
  have hcard := h.refcnt b
  rw [hz] at hcard
  have hsum : (U b).card + s.pins b = 0 := hcard.symm
  have hU : U b = ∅ := Finset.card_eq_zero.mp (by omega)
  refine ⟨hU, by omega, Option.eq_none_iff_forall_ne_some.mpr fun t ht => ?_⟩
  have hmem := (h.users b t).mpr ((h.lock b t).mp ht).on
  rw [hU] at hmem
  exact absurd hmem (Finset.notMem_empty t)

/-- A step of the use `t` on the buffer `b`. -/
theorem Counted.update {V : Finset Nat} (h : Counted s U)
    (hbuf : s'.buf = Function.update s.buf b x) (huse : s'.use = Function.update s.use t u)
    (hpins : ∀ c ≠ b, s'.pins c = s.pins c)
    (ht : ∀ c, (s.use t).on = some c → c = b) (hu : ∀ c, u.on = some c → c = b)
    (hV : ∀ t', t' ∈ V ↔ (s'.use t').on = some b)
    (hrefcnt : x.refcnt.toNat = V.card + s'.pins b)
    (hlock : ∀ t', x.lock = some t' ↔ (s'.use t').owns b) :
    Counted s' (Function.update U b V) := by
  have hon : ∀ c ≠ b, ∀ t', (s'.use t').on = some c ↔ (s.use t').on = some c := by
    intro c hc t'
    rw [huse]
    by_cases he : t' = t
    · subst he
      rw [Function.update_self]
      exact ⟨fun h' => absurd (hu c h') hc, fun h' => absurd (ht c h') hc⟩
    · rw [Function.update_of_ne he]
  have howns : ∀ c ≠ b, ∀ t', (s'.use t').owns c ↔ (s.use t').owns c := by
    intro c hc t'
    rw [huse]
    by_cases he : t' = t
    · subst he
      rw [Function.update_self]
      exact ⟨fun h' => absurd (hu c h'.on) hc, fun h' => absurd (ht c h'.on) hc⟩
    · rw [Function.update_of_ne he]
  refine ⟨fun c t' => ?_, fun c => ?_, fun c t' => ?_⟩
  · by_cases hc : c = b
    · subst hc
      rw [Function.update_self]
      exact hV t'
    · rw [Function.update_of_ne hc, h.users, hon c hc]
  · by_cases hc : c = b
    · subst hc
      rw [Function.update_self, hbuf, Function.update_self]
      exact hrefcnt
    · rw [Function.update_of_ne hc, hbuf, Function.update_of_ne hc, hpins c hc]
      exact h.refcnt c
  · by_cases hc : c = b
    · subst hc
      rw [hbuf, Function.update_self]
      exact hlock t'
    · rw [hbuf, Function.update_of_ne hc, howns c hc]
      exact h.lock c t'

/-- The references of a buffer are counted anew, and its uses stay. -/
theorem Counted.touch (h : Counted s U) (hbuf : s'.buf = Function.update s.buf b x)
    (huse : s'.use = s.use) (hpins : ∀ c ≠ b, s'.pins c = s.pins c)
    (hrefcnt : x.refcnt.toNat = (U b).card + s'.pins b) (hlock : x.lock = (s.buf b).lock) :
    Counted s' U := by
  refine ⟨huse ▸ h.users, fun c => ?_, fun c t' => ?_⟩
  · by_cases hc : c = b
    · subst hc
      rw [hbuf, Function.update_self]
      exact hrefcnt
    · rw [hbuf, Function.update_of_ne hc, hpins c hc]
      exact h.refcnt c
  · rw [huse, ← h.lock c t', hbuf]
    by_cases hc : c = b
    · subst hc
      rw [Function.update_self, hlock]
    · rw [Function.update_of_ne hc]

theorem Counted.on_update (h : Counted s U) (huse : s'.use = Function.update s.use t u) (t' : Nat) :
    (s'.use t').on = some b ↔ if t' = t then u.on = some b else t' ∈ U b := by
  rw [huse]
  by_cases he : t' = t
  · subst he
    rw [Function.update_self, if_pos rfl]
  · rw [Function.update_of_ne he, if_neg he, h.users]

theorem Counted.owns_update (h : Counted s U) (huse : s'.use = Function.update s.use t u) (t' : Nat) :
    (s'.use t').owns b ↔ if t' = t then u.owns b else (s.buf b).lock = some t' := by
  rw [huse]
  by_cases he : t' = t
  · subst he
    rw [Function.update_self, if_pos rfl]
  · rw [Function.update_of_ne he, if_neg he, h.lock]

/-- A use takes a reference. -/
theorem Counted.join (h : Counted s U) (ht : s.use t = .idle)
    (hbuf : s'.buf = Function.update s.buf b x) (huse : s'.use = Function.update s.use t (.acquiring b))
    (hpins : s'.pins = s.pins) (hrefcnt : x.refcnt.toNat = (U b).card + s.pins b + 1)
    (hlock : x.lock = (s.buf b).lock) : Counted s' (Function.update U b (insert t (U b))) := by
  have hnotin : t ∉ U b := by
    rw [h.users, ht]
    exact Option.some_ne_none b ∘ Eq.symm
  refine h.update hbuf huse (fun c _ => by rw [hpins]) (fun c hc => ?_) (fun c hc => ?_)
    (fun t' => ?_) ?_ fun t' => ?_
  · rw [ht] at hc
    cases hc
  · cases hc
    rfl
  · rw [h.on_update huse, Finset.mem_insert]
    by_cases he : t' = t
    · simp [he, Use.on]
    · simp [he]
  · rw [Finset.card_insert_of_notMem hnotin, hpins]
    omega
  · rw [h.owns_update huse, hlock]
    by_cases he : t' = t
    · subst he
      have hno : (s.buf b).lock ≠ some t' := by
        rw [Ne, h.lock, ht]
        simp [Use.owns]
      simp [Use.owns, hno]
    · simp [he]

/-- A use goes on with its buffer. -/
theorem Counted.move (h : Counted s U) (ht : (s.use t).on = some b) (hu : u.on = some b)
    (hbuf : s'.buf = Function.update s.buf b x) (huse : s'.use = Function.update s.use t u)
    (hpins : s'.pins = s.pins) (hrefcnt : x.refcnt = (s.buf b).refcnt)
    (hlock : ∀ t', x.lock = some t' ↔ if t' = t then u.owns b else (s.buf b).lock = some t') :
    Counted s' U := by
  have hsame := h.update (V := U b) hbuf huse (fun c _ => by rw [hpins]) (fun c hc => ?_) (fun c hc => ?_)
    (fun t' => ?_) ?_ fun t' => ?_
  · rwa [Function.update_eq_self] at hsame
  · exact Option.some.inj (hc.symm.trans ht)
  · exact Option.some.inj (hc.symm.trans hu)
  · rw [h.on_update huse]
    by_cases he : t' = t
    · simp [he, hu, h.users, ht]
    · simp [he]
  · rw [hrefcnt, hpins]
    exact h.refcnt b
  · rw [h.owns_update huse, hlock]

/-- A use drops its reference. -/
theorem Counted.leave (h : Counted s U) (ht : s.use t = .releasing b)
    (hbuf : s'.buf = Function.update s.buf b x) (huse : s'.use = Function.update s.use t .idle)
    (hpins : s'.pins = s.pins) (hrefcnt : x.refcnt = (s.buf b).refcnt - 1)
    (hlock : x.lock = (s.buf b).lock) : Counted s' (Function.update U b ((U b).erase t)) := by
  have hin : t ∈ U b := by
    rw [h.users, ht]
    rfl
  have hused := h.used (t := t) (b := b) (by rw [ht]; rfl)
  refine h.update hbuf huse (fun c _ => by rw [hpins]) (fun c hc => ?_) (fun c hc => ?_)
    (fun t' => ?_) ?_ fun t' => ?_
  · rw [ht] at hc
    cases hc
    rfl
  · cases hc
  · rw [h.on_update huse, Finset.mem_erase]
    by_cases he : t' = t
    · simp [he, Use.on]
    · simp [he]
  · have hpos := Finset.card_pos.mpr ⟨t, hin⟩
    have hcount := h.refcnt b
    rw [Finset.card_erase_of_mem hin, hpins, hrefcnt, toNat_sub_one hused]
    omega
  · rw [h.owns_update huse, hlock]
    by_cases he : t' = t
    · subst he
      have hno : (s.buf b).lock ≠ some t' := by
        rw [Ne, h.lock, ht]
        simp [Use.owns]
      simp [Use.owns, hno]
    · simp [he]

/-! ### The LRU list -/

/-- What `bget` looks for. -/
def hasKey (s : Cache) (k : Key) (c : BufId) : Bool :=
  (s.buf c).dev == k.1 && (s.buf c).blockno == k.2

theorem hasKey_iff {k : Key} : hasKey s k c = true ↔ (s.buf c).key = k := by
  simp only [hasKey, Bool.and_eq_true, beq_iff_eq, Buf.key, Prod.ext_iff]

/-- Never used: what `binit` has left. -/
def Buf.Pristine (x : Buf) : Prop := x.dev = 0 ∧ x.refcnt = 0 ∧ x.valid = false

structure Placed (s : Cache) (L : List BufId) : Prop where
  linked : Links.Linked s.links L
  full : ∀ b, b ∈ L
  first : ∀ b, L.find? (hasKey s (s.buf b).key) = some b ∨ (s.buf b).Pristine

theorem Placed.length_le (h : Placed s L) : L.length ≤ NBUF := by
  have := h.linked.nodup.length_le_card
  simpa using this

theorem Placed.find_next (h : Placed s L) (p : BufId → Bool) :
    Links.scan s.links.next p NBUF (s.links.next none) = L.find? p :=
  Links.scan_eq h.linked.next h.length_le

theorem Placed.find_prev (h : Placed s L) (p : BufId → Bool) :
    Links.scan s.links.prev p NBUF (s.links.prev none) = L.reverse.find? p :=
  Links.scan_eq h.linked.prev (by rw [List.length_reverse]; exact h.length_le)

/-- Two buffers with the same key have not both been used. -/
theorem Placed.eq_or_pristine (h : Placed s L) (hk : (s.buf b).key = (s.buf c).key)
    (hb : ¬ (s.buf b).Pristine) : c = b ∨ (s.buf c).Pristine := by
  have hfb := (h.first b).resolve_right hb
  refine (h.first c).imp_left fun hfc => ?_
  rw [← hk, hfb] at hfc
  exact (Option.some.inj hfc).symm

theorem hasKey_congr (hkey : ∀ c, (s'.buf c).key = (s.buf c).key) (k : Key) :
    hasKey s' k = hasKey s k := by
  funext c
  rw [Bool.eq_iff_iff, hasKey_iff, hasKey_iff, hkey]

/-- A buffer keeps its key. -/
theorem key_update (hbuf : s'.buf = Function.update s.buf b x) (hkey : x.key = (s.buf b).key) (c : BufId) :
    (s'.buf c).key = (s.buf c).key := by
  rw [hbuf]
  by_cases hc : c = b
  · subst hc
    rw [Function.update_self, hkey]
  · rw [Function.update_of_ne hc]

theorem setBuf_key (hkey : x.key = (s.buf b).key) (c : BufId) :
    ((setBuf s b x).buf c).key = (s.buf c).key :=
  key_update rfl hkey c

/-- A buffer that keeps its key is changed. -/
theorem Placed.touch (h : Placed s L) (hbuf : s'.buf = Function.update s.buf b x)
    (hlinks : s'.links = s.links) (hkey : x.key = (s.buf b).key)
    (hfirst : L.find? (hasKey s (s.buf b).key) = some b) : Placed s' L := by
  have hkeys := key_update hbuf hkey
  refine ⟨hlinks ▸ h.linked, h.full, fun c => ?_⟩
  rw [hkeys, hasKey_congr hkeys]
  by_cases hc : c = b
  · subst hc
    exact Or.inl hfirst
  · rw [hbuf, Function.update_of_ne hc]
    exact h.first c

/-- A buffer that was used becomes the most recently used one. -/
theorem Placed.relink (h : Placed s L) (hbuf : s'.buf = s.buf)
    (hlinks : s'.links = (s.links.unlink b).linkFront b)
    (hfirst : L.find? (hasKey s (s.buf b).key) = some b) : Placed s' (b :: L.erase b) := by
  have hnotin : b ∉ L.erase b := h.linked.nodup.not_mem_erase
  refine ⟨?_, fun c => ?_, fun c => ?_⟩
  · rw [hlinks]
    exact Links.linked_linkFront (Links.linked_unlink h.linked (h.full b)) hnotin
  · by_cases hc : c = b
    · subst hc
      exact List.mem_cons_self
    · exact List.mem_cons_of_mem b ((List.mem_erase_of_ne hc).mpr (h.full c))
  · rw [hasKey_congr (s := s) fun c => by rw [hbuf], hbuf]
    by_cases hk : (s.buf b).key = (s.buf c).key
    · refine (h.first c).imp_left fun hc => ?_
      rw [← hk, hfirst] at hc
      rw [← Option.some.inj hc, List.find?_cons_of_pos (hasKey_iff.mpr rfl)]
    · have hp : ¬ hasKey s (s.buf c).key b = true := fun hp => hk (hasKey_iff.mp hp)
      rw [List.find?_cons_of_neg hp, Links.find?_erase hp]
      exact h.first c

/-- A buffer is recycled for a key that no buffer has. -/
theorem Placed.recycle {k : Key} (h : Placed s L) (hbuf : s'.buf = Function.update s.buf b x)
    (hlinks : s'.links = s.links) (hkey : x.key = k) (hnone : L.find? (hasKey s k) = none) :
    Placed s' L := by
  have hother : ∀ c, (s.buf c).key ≠ k := fun c hc =>
    List.find?_eq_none.mp hnone c (h.full c) (hasKey_iff.mpr hc)
  have hb : (s'.buf b).key = k := by
    rw [hbuf, Function.update_self, hkey]
  have hne : ∀ c ≠ b, s'.buf c = s.buf c := fun c hc => by
    rw [hbuf, Function.update_of_ne hc]
  refine ⟨hlinks ▸ h.linked, h.full, fun c => ?_⟩
  by_cases hc : c = b
  · subst hc
    left
    rw [hb]
    refine Links.find?_unique (h.full c) (hasKey_iff.mpr hb) fun d hd => ?_
    by_contra hdc
    exact hother d (hne d hdc ▸ hasKey_iff.mp hd)
  · rw [hne c hc]
    refine (h.first c).imp_left fun hfirst => ?_
    refine Links.find?_drop hfirst (fun d hd => ?_) (hasKey_iff.mpr (by rw [hne c hc]))
    by_cases hdb : d = b
    · subst hdb
      exact absurd (hasKey_iff.mp hd) (hb ▸ (hother c).symm)
    · exact hasKey_iff.mpr ((hne d hdb) ▸ hasKey_iff.mp hd)

/-! ### Contents -/

structure Fresh (s : Cache) (m : Key → Data) : Prop where
  held : ∀ t b, s.use t = .holding b → (s.buf b).valid = true
  data : ∀ b, (s.buf b).valid = true → (s.buf b).data = m (s.buf b).key
  dirty : ∀ b, s.dirty b = true → (s.buf b).valid = true ∧ (0 < s.pins b ∨ (s.buf b).lock ≠ none)
  disk : ∀ k, (∀ b, (s.buf b).key = k → s.dirty b = false) → s.disk k = m k

/-- The contents of a buffer stay. -/
theorem Fresh.touch (h : Fresh s m) (hbuf : s'.buf = Function.update s.buf b x)
    (huse : ∀ t c, s'.use t = .holding c → s.use t = .holding c ∨ (s.buf c).valid = true)
    (hdisk : s'.dirty = s.dirty ∧ s'.disk = s.disk)
    (hpins : ∀ c ≠ b, s'.pins c = s.pins c)
    (hx : x.valid = (s.buf b).valid ∧ x.data = (s.buf b).data ∧ x.key = (s.buf b).key)
    (hdirty : s.dirty b = true → 0 < s'.pins b ∨ x.lock ≠ none) : Fresh s' m := by
  obtain ⟨hdirty', hdisk'⟩ := hdisk
  obtain ⟨hxvalid, hxdata, hxkey⟩ := hx
  have hkeys := key_update hbuf hxkey
  have hvalid : ∀ c, (s'.buf c).valid = (s.buf c).valid := by
    intro c
    rw [hbuf]
    by_cases hc : c = b
    · subst hc
      rw [Function.update_self, hxvalid]
    · rw [Function.update_of_ne hc]
  refine ⟨fun t c hc => ?_, fun c hc => ?_, fun c hc => ?_, fun k hk => ?_⟩
  · rw [hvalid]
    exact (huse t c hc).elim (h.held t c) id
  · rw [hvalid] at hc
    rw [hkeys, ← h.data c hc, hbuf]
    by_cases hcb : c = b
    · subst hcb
      rw [Function.update_self, hxdata]
    · rw [Function.update_of_ne hcb]
  · rw [hdirty'] at hc
    refine ⟨hvalid c ▸ (h.dirty c hc).1, ?_⟩
    rw [hbuf]
    by_cases hcb : c = b
    · subst hcb
      rw [Function.update_self]
      exact hdirty hc
    · rw [Function.update_of_ne hcb, hpins c hcb]
      exact (h.dirty c hc).2
  · rw [hdisk']
    exact h.disk k fun c hc => hdirty' ▸ hk c (by rw [hkeys, hc])

/-- A buffer is read. -/
theorem Fresh.fill (h : Fresh s m) (hbuf : s'.buf = Function.update s.buf b x)
    (huse : ∀ t c, s'.use t = .holding c → s.use t = .holding c ∨ c = b)
    (hsame : s'.dirty = Function.update s.dirty b false ∧ s'.disk = s.disk ∧ s'.pins = s.pins)
    (hx : x.valid = true ∧ x.data = m x.key ∧ x.key = (s.buf b).key)
    (hinvalid : ¬ (s.buf b).valid = true) : Fresh s' m := by
  obtain ⟨hdirty, hdisk, hpins⟩ := hsame
  have hclean : s.dirty b = false := by
    by_contra hd
    exact hinvalid (h.dirty b (by simpa using hd)).1
  rw [← hclean, Function.update_eq_self] at hdirty
  obtain ⟨hxvalid, hxdata, hxkey⟩ := hx
  have hb : s'.buf b = x := by rw [hbuf, Function.update_self]
  have hne : ∀ c ≠ b, s'.buf c = s.buf c := fun c hc => by rw [hbuf, Function.update_of_ne hc]
  refine ⟨fun t c hc => ?_, fun c hc => ?_, fun c hc => ?_, fun k hk => ?_⟩
  · by_cases hcb : c = b
    · rw [hcb, hb, hxvalid]
    · rw [hne c hcb]
      exact h.held t c ((huse t c hc).resolve_right hcb)
  · by_cases hcb : c = b
    · rw [hcb, hb, hxdata]
    · rw [hne c hcb] at hc ⊢
      exact h.data c hc
  · rw [hdirty] at hc
    have hcb : c ≠ b := by
      rintro rfl
      exact hinvalid (h.dirty c hc).1
    rw [hne c hcb, hpins]
    exact h.dirty c hc
  · rw [hdisk]
    exact h.disk k fun c hc => hdirty ▸ hk c (by rw [key_update hbuf hxkey, hc])

/-- The only valid buffer of a block is changed. -/
theorem Fresh.store {d : Data} (h : Fresh s m) (hbuf : s'.buf = Function.update s.buf b x)
    (huse : s'.use = s.use) (hsame : s'.disk = s.disk ∧ s'.pins = s.pins)
    (hdirty : s'.dirty = Function.update s.dirty b true)
    (hx : x.valid = true ∧ x.data = d ∧ x.key = (s.buf b).key ∧ x.lock ≠ none)
    (honly : ∀ c, (s.buf c).valid = true → (s.buf c).key = (s.buf b).key → c = b) :
    Fresh s' (Function.update m (s.buf b).key d) := by
  obtain ⟨hdisk, hpins⟩ := hsame
  obtain ⟨hxvalid, hxdata, hxkey, hxlock⟩ := hx
  have hb : s'.buf b = x := by rw [hbuf, Function.update_self]
  have hne : ∀ c ≠ b, s'.buf c = s.buf c := fun c hc => by rw [hbuf, Function.update_of_ne hc]
  have hclean : ∀ c ≠ b, s'.dirty c = s.dirty c := fun c hc => by
    rw [hdirty, Function.update_of_ne hc]
  refine ⟨fun t' c hc => ?_, fun c hc => ?_, fun c hc => ?_, fun k hk => ?_⟩
  · by_cases hcb : c = b
    · rw [hcb, hb, hxvalid]
    · rw [hne c hcb]
      exact h.held t' c (huse ▸ hc)
  · by_cases hcb : c = b
    · rw [hcb, hb, hxdata, hxkey, Function.update_self]
    · rw [hne c hcb] at hc ⊢
      rw [Function.update_of_ne fun hk => hcb (honly c hc hk)]
      exact h.data c hc
  · by_cases hcb : c = b
    · rw [hcb, hb]
      exact ⟨hxvalid, Or.inr hxlock⟩
    · rw [hne c hcb, hpins]
      exact h.dirty c (hclean c hcb ▸ hc)
  · have hkb : k ≠ (s.buf b).key := by
      rintro rfl
      have hfalse := hk b (by rw [hb, hxkey])
      rw [hdirty, Function.update_self] at hfalse
      cases hfalse
    rw [Function.update_of_ne hkb, hdisk]
    refine h.disk k fun c hc => ?_
    have hcb : c ≠ b := by
      rintro rfl
      exact hkb hc.symm
    rw [← hclean c hcb]
    exact hk c (by rw [hne c hcb, hc])

/-- A valid buffer is written. -/
theorem Fresh.write (h : Fresh s m) (hbuf : s'.buf = s.buf) (huse : s'.use = s.use)
    (hpins : s'.pins = s.pins) (hdirty : s'.dirty = Function.update s.dirty b false)
    (hdisk : s'.disk = Function.update s.disk (s.buf b).key (s.buf b).data)
    (hvalid : (s.buf b).valid = true) : Fresh s' m := by
  refine ⟨fun t c hc => ?_, fun c hc => ?_, fun c hc => ?_, fun k hk => ?_⟩
  · rw [hbuf]
    exact h.held t c (huse ▸ hc)
  · rw [hbuf] at hc ⊢
    exact h.data c hc
  · rw [hbuf, hpins]
    refine h.dirty c ?_
    rw [hdirty] at hc
    by_cases hcb : c = b
    · rw [hcb, Function.update_self] at hc
      cases hc
    · rwa [Function.update_of_ne hcb] at hc
  · rw [hdisk]
    by_cases hkb : k = (s.buf b).key
    · rw [hkb, Function.update_self]
      exact h.data b hvalid
    · rw [Function.update_of_ne hkb]
      refine h.disk k fun c hc => ?_
      have hclean := hk c (by rw [hbuf, hc])
      have hcb : c ≠ b := by
        rintro rfl
        exact hkb hc.symm
      rwa [hdirty, Function.update_of_ne hcb] at hclean

/-- A buffer that nobody uses is given to another block. -/
theorem Fresh.recycle (h : Fresh s m) (hbuf : s'.buf = Function.update s.buf b x)
    (huse : ∀ t c, s'.use t = .holding c → s.use t = .holding c)
    (hsame : s'.dirty = s.dirty ∧ s'.disk = s.disk ∧ s'.pins = s.pins)
    (hx : x.valid = false) (hclean : s.dirty b = false) (hfree : ∀ t, s.use t ≠ .holding b) :
    Fresh s' m := by
  obtain ⟨hdirty, hdisk, hpins⟩ := hsame
  have hb : s'.buf b = x := by rw [hbuf, Function.update_self]
  have hne : ∀ c ≠ b, s'.buf c = s.buf c := fun c hc => by rw [hbuf, Function.update_of_ne hc]
  refine ⟨fun t c hc => ?_, fun c hc => ?_, fun c hc => ?_, fun k hk => ?_⟩
  · have hcb : c ≠ b := by
      rintro rfl
      exact hfree t (huse t c hc)
    rw [hne c hcb]
    exact h.held t c (huse t c hc)
  · have hcb : c ≠ b := by
      rintro rfl
      rw [hb, hx] at hc
      cases hc
    rw [hne c hcb] at hc ⊢
    exact h.data c hc
  · rw [hdirty] at hc
    have hcb : c ≠ b := by
      rintro rfl
      rw [hclean] at hc
      cases hc
    rw [hne c hcb, hpins]
    exact h.dirty c hc
  · rw [hdisk]
    refine h.disk k fun c hc => ?_
    by_cases hcb : c = b
    · rw [hcb, hclean]
    · exact hdirty ▸ hk c (by rw [hne c hcb, hc])

/-! ### Steps -/

variable {f : Blocks}

/-- The invariant. -/
structure Coherent (s : Cache) (f : Blocks) (U : BufId → Finset Nat) (L : List BufId) : Prop where
  counted : Counted s U
  placed : Placed s L
  fresh : Fresh s f.contents
  wanted : ∀ t b, (s.use t).on = some b → (s.buf b).key = f.want t

/-- A buffer in use is the one that `bget` finds. -/
theorem Coherent.first (h : Coherent s f U L) (ht : (s.use t).on = some b) :
    L.find? (hasKey s (s.buf b).key) = some b :=
  (h.placed.first b).resolve_right fun hp => h.counted.used ht hp.2.1

theorem Coherent.wanted_update (h : Coherent s f U L) (hbuf : s'.buf = Function.update s.buf b x)
    (hkey : x.key = (s.buf b).key) (huse : ∀ t c, (s'.use t).on = some c → (s.use t).on = some c) :
    ∀ t c, (s'.use t).on = some c → (s'.buf c).key = f.want t := by
  intro t c hc
  rw [key_update hbuf hkey]
  exact h.wanted t c (huse t c hc)

/-- A use that goes on with its buffer. -/
theorem on_of_move {t' : Nat} (ht : (s.use t).on = some b) (hu : u.on = some b)
    (hc : (Function.update s.use t u t').on = some c) : (s.use t').on = some c := by
  by_cases he : t' = t
  · subst he
    rw [Function.update_self, hu] at hc
    rw [ht, hc]
  · rwa [Function.update_of_ne he] at hc

/-- A use that does not hold its buffer yet, or any more. -/
theorem holding_of_update {t' : Nat} (hu : ∀ c, u ≠ .holding c)
    (hc : Function.update s.use t u t' = .holding c) : s.use t' = .holding c := by
  by_cases he : t' = t
  · subst he
    rw [Function.update_self] at hc
    exact absurd hc (hu c)
  · rwa [Function.update_of_ne he] at hc

theorem Coherent.acquiresleep (h : Coherent s f U L) (ht : s.use t = .acquiring b) :
    Coherent (acquiresleep s t b) f U L := by
  have hon : (s.use t).on = some b := by rw [ht]; rfl
  rw [Bcache.acquiresleep]
  split
  · rename_i hfree
    refine ⟨h.counted.move hon rfl rfl rfl rfl rfl fun t' => ?_, h.placed.touch rfl rfl rfl (h.first hon),
      h.fresh.touch rfl (fun t' c hc => ?_) ⟨rfl, rfl⟩ (fun _ _ => rfl) ⟨rfl, rfl, rfl⟩ fun _ => ?_,
      h.wanted_update rfl rfl fun t' c hc => on_of_move hon rfl hc⟩
    · by_cases he : t' = t
      · simp [he, Use.owns]
      · simp [he, hfree, Ne.symm he]
    · exact Or.inl (holding_of_update (by simp) hc)
    · exact Or.inr (Option.some_ne_none t)
  · exact h

/-- Nothing is dirty under the key of a buffer in use that is not valid. -/
theorem Coherent.clean (h : Coherent s f U L) (ht : (s.use t).on = some b)
    (hvalid : (s.buf b).valid = false) (hc : (s.buf c).key = (s.buf b).key) : s.dirty c = false := by
  by_contra hd
  have hcv := (h.fresh.dirty c (by simpa using hd)).1
  rcases h.placed.eq_or_pristine hc.symm (fun hp => h.counted.used ht hp.2.1) with rfl | hp
  · rw [hvalid] at hcv
    cases hcv
  · rw [hp.2.2] at hcv
    cases hcv

/-- What `bread` returns. -/
theorem Coherent.read (h : Coherent s f U L) (ht : s.use t = .locked b) :
    ((breadLocked s t b).buf b).data = f.contents (f.want t) := by
  have hon : (s.use t).on = some b := by rw [ht]; rfl
  rw [← h.wanted t b hon, breadLocked]
  split
  · rename_i hvalid
    exact h.fresh.data b hvalid
  · rename_i hvalid
    show ((setBuf s b _).buf b).data = _
    rw [setBuf_buf_self]
    exact h.fresh.disk _ fun c hc => h.clean hon (by simpa using hvalid) hc

theorem Coherent.breadLocked (h : Coherent s f U L) (ht : s.use t = .locked b) :
    Coherent (breadLocked s t b) f U L := by
  have hon : (s.use t).on = some b := by rw [ht]; rfl
  have hlock : (s.buf b).lock = some t := (h.counted.lock b t).mpr (by rw [ht]; exact Or.inl rfl)
  have howner : ∀ t', (s.buf b).lock = some t' ↔
      if t' = t then (Use.holding b).owns b else (s.buf b).lock = some t' := by
    intro t'
    by_cases he : t' = t
    · simp [he, hlock, Use.owns]
    · simp [he]
  rw [Bcache.breadLocked]
  split
  · rename_i hvalid
    have hself : s.buf = Function.update s.buf b (s.buf b) := (Function.update_eq_self ..).symm
    refine ⟨h.counted.move hon rfl hself rfl rfl rfl howner, h.placed.touch hself rfl rfl (h.first hon),
      h.fresh.touch hself (fun t' c hc => ?_) ⟨rfl, rfl⟩ (fun _ _ => rfl) ⟨rfl, rfl, rfl⟩
        fun hd => (h.fresh.dirty b hd).2,
      h.wanted_update hself rfl fun t' c hc => on_of_move hon rfl hc⟩
    by_cases he : t' = t
    · subst he
      rw [setUse_use_self] at hc
      cases hc
      exact Or.inr hvalid
    · rw [setUse_use_ne _ _ he] at hc
      exact Or.inl hc
  · rename_i hvalid
    have hread : s.disk (s.buf b).key = f.contents (s.buf b).key :=
      h.fresh.disk _ fun c hc => h.clean hon (by simpa using hvalid) hc
    refine ⟨h.counted.move hon rfl rfl rfl rfl rfl howner, h.placed.touch rfl rfl rfl (h.first hon),
      h.fresh.fill rfl (fun t' c hc => ?_) ⟨rfl, rfl, rfl⟩ ⟨rfl, hread, rfl⟩ hvalid,
      h.wanted_update rfl rfl fun t' c hc => on_of_move hon rfl hc⟩
    by_cases he : t' = t
    · subst he
      rw [setUse_use_self] at hc
      cases hc
      exact Or.inr rfl
    · rw [setUse_use_ne _ _ he] at hc
      exact Or.inl hc

theorem Coherent.store {d : Data} (h : Coherent s f U L) (ht : s.use t = .holding b) :
    Coherent (Bcache.store s b d) (blocksStep f (.store t d)) U L := by
  have hon : (s.use t).on = some b := by rw [ht]; rfl
  have hlock : (s.buf b).lock = some t := (h.counted.lock b t).mpr (by rw [ht]; exact Or.inr rfl)
  refine ⟨h.counted.touch rfl rfl (fun _ _ => rfl) (h.counted.refcnt b) rfl,
    h.placed.touch rfl rfl rfl (h.first hon), ?_, h.wanted_update rfl rfl fun _ _ hc => hc⟩
  have honly : ∀ c, (s.buf c).valid = true → (s.buf c).key = (s.buf b).key → c = b := by
    intro c hc hk
    refine (h.placed.eq_or_pristine hk.symm fun hp => h.counted.used hon hp.2.1).resolve_right fun hp => ?_
    rw [hp.2.2] at hc
    cases hc
  have hfresh : Fresh (Bcache.store s b d) (Function.update f.contents (s.buf b).key d) :=
    h.fresh.store rfl rfl ⟨rfl, rfl⟩ rfl
      ⟨h.fresh.held t b ht, rfl, rfl, hlock ▸ Option.some_ne_none t⟩ honly
  rwa [h.wanted t b hon] at hfresh

theorem Coherent.bwrite (h : Coherent s f U L) (ht : s.use t = .holding b)
    (hs : bwrite s t b = .ok s') : Coherent s' f U L := by
  rw [Bcache.bwrite] at hs
  split at hs
  · cases hs
  · cases hs
    have hself : s.buf = Function.update s.buf b (s.buf b) := (Function.update_eq_self ..).symm
    refine ⟨h.counted.touch hself rfl (fun _ _ => rfl) (h.counted.refcnt b) rfl,
      h.placed.touch hself rfl rfl (h.first (by rw [ht]; rfl)),
      h.fresh.write (b := b) rfl rfl rfl rfl rfl (h.fresh.held t b ht),
      h.wanted_update hself rfl fun _ _ hc => hc⟩

theorem Coherent.bpin (h : Coherent s f U L) (ht : s.use t = .holding b)
    (hroom : (s.buf b).refcnt + 1 ≠ 0) : Coherent (bpin s b) f U L := by
  have hne : ∀ c ≠ b, (Bcache.bpin s b).pins c = s.pins c := fun c hc => Function.update_of_ne hc ..
  have hb : (Bcache.bpin s b).pins b = s.pins b + 1 := Function.update_self ..
  refine ⟨h.counted.touch rfl rfl hne ?_ rfl, h.placed.touch rfl rfl rfl (h.first (by rw [ht]; rfl)),
    h.fresh.touch rfl (fun _ _ hc => Or.inl hc) ⟨rfl, rfl⟩ hne ⟨rfl, rfl, rfl⟩ fun _ => Or.inl (by omega),
    h.wanted_update rfl rfl fun _ _ hc => hc⟩
  rw [toNat_add_one hroom, h.counted.refcnt, hb]
  omega

theorem Coherent.bunpin (h : Coherent s f U L) (hpin : 0 < s.pins b)
    (hlast : s.dirty b = true → 1 < s.pins b ∨ (s.buf b).lock ≠ none) : Coherent (bunpin s b) f U L := by
  have hne : ∀ c ≠ b, (Bcache.bunpin s b).pins c = s.pins c := fun c hc => Function.update_of_ne hc ..
  have hb : (Bcache.bunpin s b).pins b = s.pins b - 1 := Function.update_self ..
  have hcount := h.counted.refcnt b
  have hused : (s.buf b).refcnt ≠ 0 := by
    intro hz
    exact absurd (h.counted.unused hz).2.1 (by omega)
  have hfirst := (h.placed.first b).resolve_right fun hp => hused hp.2.1
  refine ⟨h.counted.touch rfl rfl hne ?_ rfl, h.placed.touch rfl rfl rfl hfirst,
    h.fresh.touch rfl (fun _ _ hc => Or.inl hc) ⟨rfl, rfl⟩ hne ⟨rfl, rfl, rfl⟩ fun hd => ?_,
    h.wanted_update rfl rfl fun _ _ hc => hc⟩
  · rw [toNat_sub_one hused, hb]
    omega
  · exact (hlast hd).imp_left fun hlt => by omega

theorem Coherent.brelseUnlock (h : Coherent s f U L) (ht : s.use t = .holding b)
    (hdirty : s.dirty b = true → 0 < s.pins b) (hs : brelseUnlock s t b = .ok s') :
    Coherent s' f U L := by
  have hon : (s.use t).on = some b := by rw [ht]; rfl
  rw [Bcache.brelseUnlock] at hs
  split at hs
  · cases hs
  · rename_i hlock
    rw [not_not] at hlock
    cases hs
    refine ⟨h.counted.move hon rfl rfl rfl rfl rfl fun t' => ?_, h.placed.touch rfl rfl rfl (h.first hon),
      h.fresh.touch rfl (fun t' c hc => Or.inl (holding_of_update (by simp) hc)) ⟨rfl, rfl⟩
        (fun _ _ => rfl) ⟨rfl, rfl, rfl⟩ fun hd => Or.inl (hdirty hd),
      h.wanted_update rfl rfl fun t' c hc => on_of_move hon rfl hc⟩
    by_cases he : t' = t
    · simp [he, Use.owns]
    · simp [he, hlock, Ne.symm he]

theorem Coherent.brelseLink (h : Coherent s f U L) (ht : s.use t = .releasing b) :
    ∃ U' L', Coherent (brelseLink s t b) f U' L' := by
  have hfirst := h.first (t := t) (b := b) (by rw [ht]; rfl)
  have hleft : ∀ t' c, (Function.update s.use t .idle t').on = some c → (s.use t').on = some c := by
    intro t' c hc
    by_cases he : t' = t
    · rw [he, Function.update_self] at hc
      cases hc
    · rwa [Function.update_of_ne he] at hc
  have hcoh : Coherent (setUse (setBuf s b { s.buf b with refcnt := (s.buf b).refcnt - 1 }) t .idle) f
      (Function.update U b ((U b).erase t)) L :=
    ⟨h.counted.leave ht rfl rfl rfl rfl rfl, h.placed.touch rfl rfl rfl hfirst,
      h.fresh.touch rfl (fun t' c hc => Or.inl (holding_of_update (by simp) hc)) ⟨rfl, rfl⟩
        (fun _ _ => rfl) ⟨rfl, rfl, rfl⟩ fun hd => (h.fresh.dirty b hd).2,
      h.wanted_update rfl rfl hleft⟩
  have hkeys : ∀ c, ((setUse (setBuf s b { s.buf b with refcnt := (s.buf b).refcnt - 1 }) t
      .idle).buf c).key = (s.buf c).key := setBuf_key rfl
  rw [Bcache.brelseLink]
  split
  · refine ⟨_, b :: L.erase b, ⟨hcoh.counted.users, hcoh.counted.refcnt, hcoh.counted.lock⟩,
      hcoh.placed.relink rfl rfl ?_, ⟨hcoh.fresh.held, hcoh.fresh.data, hcoh.fresh.dirty, hcoh.fresh.disk⟩,
      hcoh.wanted⟩
    rw [hasKey_congr hkeys, hkeys]
    exact hfirst
  · exact ⟨_, L, hcoh⟩

/-- `bget` finds the block. -/
theorem Coherent.hit (h : Coherent s f U L) (ht : s.use t = .idle)
    (hb : L.find? (hasKey s (dev, blockno)) = some b) (hroom : (s.buf b).refcnt + 1 ≠ 0) :
    Coherent (setUse (setBuf s b { s.buf b with refcnt := (s.buf b).refcnt + 1 }) t (.acquiring b))
      (blocksStep f (.bget t dev blockno)) (Function.update U b (insert t (U b))) L := by
  have hkey : (s.buf b).key = (dev, blockno) := hasKey_iff.mp (List.find?_some hb)
  refine ⟨h.counted.join ht rfl rfl rfl ?_ rfl, h.placed.touch rfl rfl rfl (hkey ▸ hb),
    h.fresh.touch rfl (fun t' c hc => Or.inl (holding_of_update (by simp) hc)) ⟨rfl, rfl⟩
      (fun _ _ => rfl) ⟨rfl, rfl, rfl⟩ fun hd => (h.fresh.dirty b hd).2, fun t' c hc => ?_⟩
  · rw [toNat_add_one hroom, h.counted.refcnt]
  · have hkeys : ∀ c, ((setUse (setBuf s b { s.buf b with refcnt := (s.buf b).refcnt + 1 }) t
        (.acquiring b)).buf c).key = (s.buf c).key := setBuf_key rfl
    rw [hkeys]
    by_cases he : t' = t
    · subst he
      rw [setUse_use_self] at hc
      cases hc
      show (s.buf b).key = Function.update f.want t' (dev, blockno) t'
      rw [Function.update_self, hkey]
    · rw [setUse_use_ne _ _ he] at hc
      exact (h.wanted t' c hc).trans (Function.update_of_ne he ..).symm

/-- `bget` takes a buffer that nobody uses. -/
theorem Coherent.recycle (h : Coherent s f U L) (ht : s.use t = .idle)
    (hnone : L.find? (hasKey s (dev, blockno)) = none) (hb : (s.buf b).refcnt = 0) :
    Coherent (setUse (setBuf s b
        { s.buf b with dev := dev, blockno := blockno, valid := false, refcnt := 1 }) t (.acquiring b))
      (blocksStep f (.bget t dev blockno)) (Function.update U b (insert t (U b))) L := by
  obtain ⟨hU, hpins, hlock⟩ := h.counted.unused hb
  have hnobody : ∀ t', (s.use t').on ≠ some b := by
    intro t' ht'
    have hmem := (h.counted.users b t').mpr ht'
    rw [hU] at hmem
    exact Finset.notMem_empty t' hmem
  have hclean : s.dirty b = false := by
    by_contra hd
    rcases (h.fresh.dirty b (by simpa using hd)).2 with hp | hl
    · omega
    · exact hl hlock
  refine ⟨h.counted.join ht rfl rfl rfl ?_ rfl, h.placed.recycle rfl rfl rfl hnone,
    h.fresh.recycle rfl (fun t' c hc => holding_of_update (by simp) hc) ⟨rfl, rfl, rfl⟩ rfl hclean
      fun t' ht' => hnobody t' (by rw [ht']; rfl), fun t' c hc => ?_⟩
  · rw [hU, hpins]
    rfl
  · rw [setUse_buf]
    by_cases he : t' = t
    · subst he
      rw [setUse_use_self] at hc
      cases hc
      rw [setBuf_buf_self]
      show (dev, blockno) = Function.update f.want t' (dev, blockno) t'
      rw [Function.update_self]
    · rw [setUse_use_ne _ _ he] at hc
      have hcb : c ≠ b := by
        rintro rfl
        exact hnobody t' hc
      rw [setBuf_buf_ne _ _ hcb]
      exact (h.wanted t' c hc).trans (Function.update_of_ne he ..).symm

/-- What `bget` does. -/
theorem Coherent.bget_cases (h : Coherent s f U L) (hs : bget s t dev blockno = .ok s') :
    (∃ b, L.find? (hasKey s (dev, blockno)) = some b ∧
      s' = setUse (setBuf s b { s.buf b with refcnt := (s.buf b).refcnt + 1 }) t (.acquiring b)) ∨
    (∃ b, L.find? (hasKey s (dev, blockno)) = none ∧
      L.reverse.find? (fun b => (s.buf b).refcnt == 0) = some b ∧
      s' = setUse (setBuf s b
        { s.buf b with dev := dev, blockno := blockno, valid := false, refcnt := 1 }) t (.acquiring b)) := by
  rw [bget, h.placed.find_next, h.placed.find_prev] at hs
  split at hs
  · rename_i b hb
    cases hs
    exact Or.inl ⟨b, hb, rfl⟩
  · rename_i hnone
    split at hs
    · rename_i b hb
      cases hs
      exact Or.inr ⟨b, hnone, hb, rfl⟩
    · cases hs

/-- A step, by the place of the use. -/
inductive StepsTo : CacheAct → Cache → Option Data → Cache → Prop where
  | bget {t : Nat} {dev blockno : BitVec 32} {s s' : Cache} (ht : s.use t = .idle)
      (h : Bcache.bget s t dev blockno = .ok s') : StepsTo (.bget t dev blockno) s none s'
  | acquiring {t : Nat} {b : BufId} {s : Cache} (ht : s.use t = .acquiring b) :
      StepsTo (.next t) s none (acquiresleep s t b)
  | locked {t : Nat} {b : BufId} {s : Cache} (ht : s.use t = .locked b) :
      StepsTo (.next t) s (some ((breadLocked s t b).buf b).data) (breadLocked s t b)
  | releasing {t : Nat} {b : BufId} {s : Cache} (ht : s.use t = .releasing b) :
      StepsTo (.next t) s none (brelseLink s t b)
  | store {t : Nat} {b : BufId} {d : Data} {s : Cache} (ht : s.use t = .holding b) :
      StepsTo (.store t d) s none (Bcache.store s b d)
  | bwrite {t : Nat} {b : BufId} {s s' : Cache} (ht : s.use t = .holding b)
      (h : Bcache.bwrite s t b = .ok s') : StepsTo (.bwrite t) s none s'
  | bpin {t : Nat} {b : BufId} {s : Cache} (ht : s.use t = .holding b) :
      StepsTo (.bpin t) s none (Bcache.bpin s b)
  | bunpin {b : BufId} {s : Cache} : StepsTo (.bunpin b) s none (Bcache.bunpin s b)
  | brelse {t : Nat} {b : BufId} {s s' : Cache} (ht : s.use t = .holding b)
      (h : brelseUnlock s t b = .ok s') : StepsTo (.brelse t) s none s'

theorem cacheStep_inv {a : CacheAct} {r : Option Data} (hs : cacheStep a s = .ok (r, s')) :
    StepsTo a s r s' := by
  cases a with
  | bget t dev blockno =>
      rw [cacheStep] at hs
      split at hs
      · rename_i ht
        obtain ⟨s₁, h, hs⟩ := bind_eq_ok.mp hs
        cases hs
        exact .bget ht h
      · cases hs
  | next t =>
      rw [cacheStep] at hs
      split at hs
      · rename_i b ht
        cases hs
        exact .acquiring ht
      · rename_i b ht
        cases hs
        exact .locked ht
      · rename_i b ht
        cases hs
        exact .releasing ht
      · cases hs
  | store t d =>
      rw [cacheStep] at hs
      split at hs
      · rename_i b ht
        cases hs
        exact .store ht
      · cases hs
  | bwrite t =>
      rw [cacheStep] at hs
      split at hs
      · rename_i b ht
        obtain ⟨s₁, h, hs⟩ := bind_eq_ok.mp hs
        cases hs
        exact .bwrite ht h
      · cases hs
  | bpin t =>
      rw [cacheStep] at hs
      split at hs
      · rename_i b ht
        cases hs
        exact .bpin ht
      · cases hs
  | bunpin b =>
      cases hs
      exact .bunpin
  | brelse t =>
      rw [cacheStep] at hs
      split at hs
      · rename_i b ht
        obtain ⟨s₁, h, hs⟩ := bind_eq_ok.mp hs
        cases hs
        exact .brelse ht h
      · cases hs

/-- **The invariant is kept by every step.** -/
theorem cacheStep_coherent {a : CacheAct} {r : Option Data} (h : ∃ U L, Coherent s f U L)
    (hg : Disciplined a s ∧ Careful a s) (hs : cacheStep a s = .ok (r, s')) :
    ∃ U L, Coherent s' (blocksStep f a) U L := by
  obtain ⟨U, L, h⟩ := h
  obtain ⟨hdisc, hcare⟩ := hg
  cases cacheStep_inv hs with
  | bget ht hget =>
      rcases h.bget_cases hget with ⟨b, hb, rfl⟩ | ⟨b, hnone, hb, rfl⟩
      · exact ⟨_, L, h.hit ht hb (hcare b)⟩
      · exact ⟨_, L, h.recycle ht hnone (by simpa using List.find?_some hb)⟩
  | acquiring ht => exact ⟨U, L, h.acquiresleep ht⟩
  | locked ht => exact ⟨U, L, h.breadLocked ht⟩
  | releasing ht => exact h.brelseLink ht
  | store ht => exact ⟨U, L, h.store ht⟩
  | bwrite ht hw => exact ⟨U, L, h.bwrite ht hw⟩
  | bpin ht => exact ⟨U, L, h.bpin ht (hcare _ (by rw [ht]; rfl))⟩
  | bunpin => exact ⟨U, L, h.bunpin hdisc hcare⟩
  | brelse ht hr => exact ⟨U, L, h.brelseUnlock ht (hdisc _ (by rw [ht]; rfl)) hr⟩

/-- A buffer that changes its block is the last one without references. -/
theorem Coherent.recycled {a : CacheAct} {r : Option Data} (h : Coherent s f U L)
    (hs : cacheStep a s = .ok (r, s')) (hb : (s'.buf b).key ≠ (s.buf b).key) :
    L.reverse.find? (fun b => (s.buf b).refcnt == 0) = some b := by
  cases cacheStep_inv hs with
  | @bget t _ _ _ _ _ hget =>
      rcases h.bget_cases hget with ⟨c, -, rfl⟩ | ⟨c, -, hc, rfl⟩
      · exact (hb (key_update rfl (by rfl) b)).elim
      · rw [hc]
        by_contra hne
        rw [setUse_buf, setBuf_buf_ne _ _ (fun he => hne (congrArg some he.symm))] at hb
        exact hb rfl
  | acquiring ht =>
      rw [Bcache.acquiresleep] at hb
      split at hb
      · exact (hb (key_update rfl (by rfl) b)).elim
      · exact absurd rfl hb
  | locked ht =>
      rw [Bcache.breadLocked] at hb
      split at hb
      · exact absurd rfl hb
      · exact (hb (key_update rfl (by rfl) b)).elim
  | releasing ht =>
      rw [Bcache.brelseLink] at hb
      split at hb
      · exact (hb (key_update rfl (by rfl) b)).elim
      · exact (hb (key_update rfl (by rfl) b)).elim
  | store ht => exact (hb (key_update rfl (by rfl) b)).elim
  | bwrite ht hw =>
      rw [Bcache.bwrite] at hw
      split at hw
      · cases hw
      · cases hw
        exact absurd rfl hb
  | bpin ht => exact (hb (key_update rfl (by rfl) b)).elim
  | bunpin => exact (hb (key_update rfl (by rfl) b)).elim
  | brelse ht hr =>
      rw [Bcache.brelseUnlock] at hr
      split at hr
      · cases hr
      · cases hr
        exact (hb (key_update rfl (by rfl) b)).elim

/-! ### Runs -/

theorem linked_foldl {l : Links BufId} (h : Links.Linked l L) :
    ∀ M : List BufId, M.Nodup → (∀ b ∈ M, b ∉ L) →
      Links.Linked (M.foldl Links.linkFront l) (M.reverse ++ L) := by
  intro M
  induction M generalizing l L with
  | nil => exact fun _ _ => h
  | cons b M ih =>
      intro hnd hnotin
      obtain ⟨hb, hnd⟩ := List.nodup_cons.mp hnd
      have hfront := Links.linked_linkFront h (hnotin b List.mem_cons_self)
      have := ih hfront hnd fun c hc hcL => ?_
      · rw [List.foldl_cons, List.reverse_cons, List.append_assoc]
        exact this
      · rcases List.mem_cons.mp hcL with rfl | hcL
        · exact hb hc
        · exact hnotin c (List.mem_cons_of_mem b hc) hcL

theorem coherent_binit (disk : Key → Data) :
    Coherent (binit disk) (blocksInit disk) (fun _ => ∅) (List.finRange NBUF).reverse := by
  refine ⟨⟨fun b t => ?_, fun b => rfl, fun b t => ?_⟩, ⟨?_, fun b => ?_, fun b => Or.inr ⟨rfl, rfl, rfl⟩⟩,
    ⟨fun t b hb => ?_, fun b hb => ?_, fun b hb => ?_, fun k _ => rfl⟩, fun t b hb => ?_⟩
  · simp [binit, Use.on]
  · simp [binit, Use.owns]
  · have := linked_foldl Links.linked_empty (List.finRange NBUF) (List.nodup_finRange NBUF)
      fun b _ => List.not_mem_nil
    rwa [List.append_nil] at this
  · simp
  · cases hb
  · cases hb
  · cases hb
  · cases hb

/-- **The buffer cache is coherent.**  Let any processes read, change, write, pin and release buffers,
change them under their locks only, write or pin what they have changed before they release it, undo
only their own pins and keep the last pin of what has not been written.  Then, in every state that is
reached,

* the list has every buffer exactly once, and no two buffers have the same block of a device;
* a buffer that the next step gives to another block has no references, and is the last such one in
  the list;
* what `bread` returns is what the last holder has left in the block.
-/
theorem cache_coherent {disk : Key → Data} {acts : List CacheAct} {rs : List (Option Data)}
    (hm : Meets cacheStep (fun a s => Disciplined a s ∧ Careful a s) acts (binit disk))
    (hrun : run cacheStep acts (binit disk) = .ok (rs, s)) :
    (∃ L, Links.Linked s.links L ∧ (∀ b, L.count b = 1) ∧
      ∀ a r s' b, cacheStep a s = .ok (r, s') → (s'.buf b).key ≠ (s.buf b).key →
        (s.buf b).refcnt = 0 ∧ L.reverse.find? (fun b => (s.buf b).refcnt == 0) = some b) ∧
    (∀ b c, (s.buf b).key = (s.buf c).key → (s.buf b).dev ≠ 0 → b = c) ∧
    (∀ t d s', cacheStep (.next t) s = .ok (some d, s') →
      d = (acts.foldl blocksStep (blocksInit disk)).contents
        ((acts.foldl blocksStep (blocksInit disk)).want t)) := by
  have hstep : ∀ a s f r s', Disciplined a s ∧ Careful a s → (∃ U L, Coherent s f U L) →
      cacheStep a s = .ok (r, s') → ∃ U L, Coherent s' (blocksStep f a) U L :=
    fun a s f r s' hg hI hs => cacheStep_coherent hI hg hs
  obtain ⟨U, L, h⟩ := run_tracks hstep acts (binit disk) (blocksInit disk) rs s hm
    ⟨_, _, coherent_binit disk⟩ hrun
  refine ⟨⟨L, h.placed.linked, fun b => List.count_eq_one_of_mem h.placed.linked.nodup (h.placed.full b),
    fun a r s' b hs hb => ?_⟩, fun b c hk hdev => ?_, fun t d s' hs => ?_⟩
  · have hlast := h.recycled hs hb
    exact ⟨by simpa using List.find?_some hlast, hlast⟩
  · refine ((h.placed.eq_or_pristine hk fun hp => hdev hp.1).resolve_right fun hp => hdev ?_).symm
    exact (congrArg Prod.fst hk).trans hp.1
  · cases cacheStep_inv hs with
    | locked ht => exact h.read ht

/-- The least recently used buffer after `binit`. -/
def firstBuf : BufId := ⟨0, by decide⟩

/-- A use changes a block, writes and releases it, and another one asks for it. -/
def writtenBack : List CacheAct :=
  [.bget 0 1 5, .next 0, .next 0, .store 0 (fun _ => 7), .bwrite 0, .brelse 0, .next 0,
    .bget 1 1 5, .next 1]

theorem cache_coherent_writtenBack :
    Meets cacheStep (fun a s => Disciplined a s ∧ Careful a s) writtenBack (binit fun _ _ => 0) ∧
    ∃ rs s d s', run cacheStep writtenBack (binit fun _ _ => 0) = .ok (rs, s) ∧
      cacheStep (.next 1) s = .ok (some d, s') ∧
      d = (writtenBack.foldl blocksStep (blocksInit fun _ _ => 0)).contents (1, 5) := by
  have hm : Meets cacheStep (fun a s => Disciplined a s ∧ Careful a s) writtenBack
      (binit fun _ _ => 0) := by decide +kernel
  have hend : ((run cacheStep writtenBack (binit fun _ _ => 0)).toOption.map fun x =>
      x.2.use 1) = some (.locked firstBuf) := by decide +kernel
  obtain ⟨⟨rs, s⟩, hrun, huse⟩ := Option.map_eq_some_iff.mp hend
  have hrun := eq_ok_of_toOption hrun
  have hnext : cacheStep (.next 1) s = .ok (some ((breadLocked s 1 firstBuf).buf firstBuf).data,
      breadLocked s 1 firstBuf) := by
    rw [cacheStep, show s.use 1 = .locked firstBuf from huse]
  exact ⟨hm, rs, s, _, _, hrun, hnext, (cache_coherent hm hrun).2.2 1 _ _ hnext⟩

/-- A use changes a block, pins and releases it; the pin is undone, the buffer is given to another
block, and the first block is asked for again. -/
def unpinnedUnwritten : List CacheAct :=
  [.bget 0 1 5, .next 0, .next 0, .store 0 (fun _ => 7), .bpin 0, .brelse 0, .next 0,
    .bunpin firstBuf, .bget 1 1 6, .next 1, .next 1, .brelse 1, .next 1, .bget 2 1 5, .next 2]

/-- **A change is lost** if the pin is undone before the buffer is written: `bread` returns what was on
the disk. -/
theorem change_lost_after_bunpin :
    Meets cacheStep Disciplined unpinnedUnwritten (binit fun _ _ => 0) ∧
    ∃ rs s d s', run cacheStep unpinnedUnwritten (binit fun _ _ => 0) = .ok (rs, s) ∧
      cacheStep (.next 2) s = .ok (some d, s') ∧
      d ≠ (unpinnedUnwritten.foldl blocksStep (blocksInit fun _ _ => 0)).contents
        ((unpinnedUnwritten.foldl blocksStep (blocksInit fun _ _ => 0)).want 2) := by
  have hend : ((run cacheStep unpinnedUnwritten (binit fun _ _ => 0)).toOption.bind fun x =>
      ((cacheStep (.next 2) x.2).toOption.bind fun y => y.1.map fun d => d ⟨0, by decide⟩)) =
      some 0 := by decide +kernel
  obtain ⟨⟨rs, s⟩, hrun, hnext⟩ := Option.bind_eq_some_iff.mp hend
  obtain ⟨⟨r, s'⟩, hnext, hd⟩ := Option.bind_eq_some_iff.mp hnext
  obtain ⟨d, hr, hzero⟩ := Option.map_eq_some_iff.mp hd
  cases hr
  refine ⟨by decide +kernel, rs, s, d, s', eq_ok_of_toOption hrun, eq_ok_of_toOption hnext, fun he => ?_⟩
  have hseven : (unpinnedUnwritten.foldl blocksStep (blocksInit fun _ _ => 0)).contents
      ((unpinnedUnwritten.foldl blocksStep (blocksInit fun _ _ => 0)).want 2) ⟨0, by decide⟩ = 7 := by
    decide +kernel
  rw [← he, hzero] at hseven
  exact absurd hseven (by decide)

end Xv6.Bcache
