import OntologicalDb.PackStreamRoundTrip

/-!
The decoder on bytes nobody vouches for.
-/

namespace OntologicalDb.PackStreamSafety

open OntologicalDb.BigEndian
open OntologicalDb.FallibleState
open OntologicalDb.PackStream
open OntologicalDb.PackStream.Reader

variable {α β : Type} {buf : List UInt8} {d d₁ d' : Nat}

/-- Reads stay inside the buffer, and room is asked for no more than the bytes that remain. -/
def Within (buf : List UInt8) : Access → Prop
  | .read pos len => pos + len ≤ buf.length
  | .reserve pos capacity => capacity ≤ buf.length - pos

structure Safe (buf : List UInt8) (r : Reader) : Prop where
  buf_eq : r.buf = buf
  pos_le : r.pos ≤ buf.length
  within : ∀ a ∈ r.accesses, Within buf a

theorem Safe.record {r : Reader} (h : Safe buf r) {a : Access} (ha : Within buf a) {pos depth : Nat}
    (hpos : pos ≤ buf.length) :
    Safe buf { r with pos := pos, depth := depth, accesses := a :: r.accesses } where
  buf_eq := h.buf_eq
  pos_le := hpos
  within := List.forall_mem_cons.mpr ⟨ha, h.within⟩

/-- From a safe reader with `d` open containers a program ends in a safe one, with `d'` open when
it succeeds, and the stack holds. -/
def Keeps (buf : List UInt8) (d d' : Nat) (m : ReaderM α) : Prop :=
  ∀ r, Safe buf r → r.depth = d →
    Ends m (fun _ r' => Safe buf r' ∧ r'.depth = d')
      (fun e r' => e ≠ .stackOverflow ∧ Safe buf r') r

theorem keeps_pure {a : α} : Keeps buf d d (pure a) := by
  intro r hr hd
  exact ⟨hr, hd⟩

theorem keeps_throw {e : Error} (he : e ≠ .stackOverflow) :
    Keeps buf d d' (throw e : ReaderM α) := by
  intro r hr _
  exact ⟨he, hr⟩

theorem Keeps.bind {m : ReaderM α} {f : α → ReaderM β} (hm : Keeps buf d d₁ m)
    (hf : ∀ a, Keeps buf d₁ d' (f a)) : Keeps buf d d' (m >>= f) := by
  intro r hr hd
  rw [ends_bind]
  apply (hm r hr hd).imp
  · rintro a r' ⟨hr', hd'⟩
    exact hf a r' hr' hd'
  · intro e r' h
    exact h

theorem Keeps.ite {p : Prop} [Decidable p] {m m' : ReaderM α} (h : Keeps buf d d' m)
    (h' : Keeps buf d d' m') : Keeps buf d d' (if p then m else m') := by
  split
  · exact h
  · exact h'

theorem Keeps.get {f : Reader → ReaderM α} (h : ∀ r, Safe buf r → Keeps buf d d' (f r)) :
    Keeps buf d d' (get >>= f) := by
  intro r hr hd
  rw [ends_bind, ends_get]
  exact h r hr r hr hd

theorem Keeps.times {m : ReaderM α} (hm : Keeps buf d d m) (n : Nat) :
    Keeps buf d d (times m n) := by
  induction n with
  | zero => exact keeps_pure
  | succ n ih => exact hm.bind fun _ => ih.bind fun _ => keeps_pure

/-! The steps of the decoder -/

/-- A container is opened where the limit leaves room for it. -/
theorem Keeps.enter {f : Unit → ReaderM α} (h : d + 1 ≤ MAX_DEPTH → Keeps buf (d + 1) d' (f ())) :
    Keeps buf d d' (enter >>= f) := by
  rintro r hr rfl
  simp only [Reader.enter, ends_bind, ends_modify, ends_get]
  have hr' : Safe buf { r with depth := r.depth + 1 } := ⟨hr.buf_eq, hr.pos_le, hr.within⟩
  split
  next => exact ⟨by simp, hr'⟩
  next hroom => exact h (not_lt.mp hroom) _ hr' rfl

theorem keeps_leave : Keeps buf (d + 1) d leave := by
  intro r hr hd
  simp only [leave, ends_modify]
  refine ⟨⟨hr.buf_eq, hr.pos_le, hr.within⟩, ?_⟩
  rw [hd, Nat.add_sub_cancel]

theorem keeps_with_capacity {pos capacity : Nat} (h : capacity ≤ buf.length - pos) :
    Keeps buf d d (with_capacity pos capacity) := by
  intro r hr hd
  exact ⟨hr.record (a := .reserve pos capacity) h hr.pos_le, hd⟩

theorem keeps_reserve {r : Reader} (hr : Safe buf r) (n : Nat) :
    Keeps buf d d (with_capacity r.pos (r.reserve n 1)) := by
  apply keeps_with_capacity
  rw [Reader.reserve, hr.buf_eq, Nat.max_self, Nat.div_one]
  exact Nat.min_le_right _ _

theorem keeps_byte : Keeps buf d d byte := by
  intro r hr hd
  simp only [byte, ends_bind, ends_get]
  split
  next => exact ⟨by simp, hr⟩
  next b hb =>
    obtain ⟨hlt, -⟩ := List.getElem?_eq_some_iff.mp hb
    rw [hr.buf_eq] at hlt
    exact ⟨hr.record (a := .read r.pos 1) hlt hlt, hd⟩

theorem keeps_bytes (n : Nat) : Keeps buf d d (bytes n) := by
  intro r hr hd
  simp only [bytes, ends_bind, ends_get]
  split
  next => exact ⟨by simp, hr⟩
  next hroom =>
    rw [hr.buf_eq] at hroom
    have hend : r.pos + n ≤ buf.length := not_lt.mp hroom
    exact ⟨hr.record (a := .read r.pos n) hend hend, hd⟩

theorem keeps_size (marker base : UInt8) : Keeps buf d d (size marker base) := by
  unfold size
  split_ifs
  · exact keeps_byte.bind fun _ => keeps_pure
  · exact (keeps_bytes 2).bind fun _ => keeps_pure
  · exact (keeps_bytes 4).bind fun _ => keeps_pure

/-- The copy of a string has as many bytes as were found behind its length. -/
theorem keeps_string (n : Nat) : Keeps buf d d (string n) := by
  intro r hr hd
  simp only [string, bytes, with_capacity, ends_bind, ends_get]
  split
  next => exact ⟨by simp, hr⟩
  next hroom =>
    rw [hr.buf_eq] at hroom
    have hend : r.pos + n ≤ buf.length := not_lt.mp hroom
    have hread : Safe buf { r with pos := r.pos + n, accesses := .read r.pos n :: r.accesses } :=
      hr.record (a := .read r.pos n) hend hend
    refine ⟨hread.record ?_ hread.pos_le, hd⟩
    change ((r.buf.drop r.pos).take n).length ≤ buf.length - r.pos
    rw [List.length_take, List.length_drop, hr.buf_eq]
    exact Nat.min_le_right _ _

theorem keeps_list {value : ReaderM Value} (n : Nat)
    (h : d + 1 ≤ MAX_DEPTH → Keeps buf (d + 1) (d + 1) value) : Keeps buf d d (list value n) := by
  apply Keeps.enter
  intro hroom
  apply Keeps.get
  intro r hr
  apply (keeps_reserve hr n).bind
  rintro -
  apply ((h hroom).times n).bind
  intro xs
  exact keeps_leave.bind fun _ => keeps_pure

theorem keeps_struct {value : ReaderM Value} (n : Nat)
    (h : d + 1 ≤ MAX_DEPTH → Keeps buf (d + 1) (d + 1) value) :
    Keeps buf d d (struct value n) := by
  apply Keeps.enter
  intro hroom
  apply keeps_byte.bind
  intro sig
  apply Keeps.get
  intro r hr
  apply (keeps_reserve hr n).bind
  rintro -
  apply ((h hroom).times n).bind
  intro fields
  exact keeps_leave.bind fun _ => keeps_pure

theorem keeps_entries {value : ReaderM Value} (h : Keeps buf d d value) (n : Nat)
    (m : List (String × Value)) : Keeps buf d d (entries value n m) := by
  induction n generalizing m with
  | zero => exact keeps_pure
  | succ n ih =>
      apply h.bind
      intro k
      split
      · exact h.bind fun v => ih _
      · exact keeps_throw (by simp)

theorem keeps_dict {value : ReaderM Value} (n : Nat)
    (h : d + 1 ≤ MAX_DEPTH → Keeps buf (d + 1) (d + 1) value) : Keeps buf d d (dict value n) := by
  apply Keeps.enter
  intro hroom
  apply (keeps_entries (h hroom) n []).bind
  intro m
  exact keeps_leave.bind fun _ => keeps_pure

theorem keeps_marked {value : ReaderM Value} (m : UInt8)
    (h : d + 1 ≤ MAX_DEPTH → Keeps buf (d + 1) (d + 1) value) :
    Keeps buf d d (marked value m) := by
  apply keeps_pure.ite
  apply keeps_pure.ite
  apply keeps_pure.ite
  apply ((keeps_bytes 8).bind fun _ => keeps_pure).ite
  apply (keeps_byte.bind fun _ => keeps_pure).ite
  apply ((keeps_bytes 2).bind fun _ => keeps_pure).ite
  apply ((keeps_bytes 4).bind fun _ => keeps_pure).ite
  apply ((keeps_bytes 8).bind fun _ => keeps_pure).ite
  apply keeps_pure.ite
  apply keeps_pure.ite
  apply (keeps_string _).ite
  apply ((keeps_size _ _).bind fun n => keeps_string n).ite
  apply (keeps_list _ h).ite
  apply ((keeps_size _ _).bind fun n => keeps_list n h).ite
  apply (keeps_dict _ h).ite
  apply ((keeps_size _ _).bind fun n => keeps_dict n h).ite
  apply (keeps_struct _ h).ite
  exact keeps_throw (by simp)

/-- While a frame is left for every container that may still be opened, the stack holds. -/
theorem keeps_value {frames : Nat} (hd : d ≤ MAX_DEPTH) (hframes : MAX_DEPTH < d + frames) :
    Keeps buf d d (value frames) := by
  induction frames generalizing d with
  | zero => omega
  | succ frames ih =>
      apply keeps_byte.bind
      intro m
      apply keeps_marked
      intro hroom
      exact ih hroom (by omega)

end OntologicalDb.PackStreamSafety
