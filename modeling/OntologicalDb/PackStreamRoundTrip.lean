import Mathlib.Tactic.IntervalCases
import OntologicalDb.PackStream

/-!
What the encoder writes, the decoder reads back.
-/

namespace OntologicalDb.PackStreamRoundTrip

open OntologicalDb.BigEndian
open OntologicalDb.FallibleState
open OntologicalDb.PackStream
open OntologicalDb.PackStream.Reader

variable {α β : Type} {d d₁ d' : Nat} {bs bs' : List UInt8}

/-- Where `bs` is next and `d` containers are open, the program reads `bs`, returns `a` and
leaves `d'` containers open. -/
def Reads (m : ReaderM α) (d d' : Nat) (bs : List UInt8) (a : α) : Prop :=
  ∀ r before rest, r.buf = before ++ (bs ++ rest) → r.pos = before.length → r.depth = d →
    Ends m (fun x r' => x = a ∧ r'.buf = r.buf ∧ r'.pos = r.pos + bs.length ∧ r'.depth = d')
      (fun _ _ => False) r

theorem reads_pure {a : α} : Reads (pure a) d d [] a := by
  intro r before rest _ _ hd
  exact ⟨rfl, rfl, rfl, hd⟩

theorem Reads.bind {m : ReaderM α} {f : α → ReaderM β} {a : α} {b : β}
    (hm : Reads m d d₁ bs a) (hf : Reads (f a) d₁ d' bs' b) :
    Reads (m >>= f) d d' (bs ++ bs') b := by
  intro r before rest hbuf hpos hd
  rw [List.append_assoc] at hbuf
  rw [ends_bind]
  apply (hm r before _ hbuf hpos hd).imp
  · rintro x r' ⟨rfl, hbuf', hpos', hd'⟩
    have hnext : r'.buf = (before ++ bs) ++ (bs' ++ rest) := by
      rw [hbuf', hbuf, List.append_assoc]
    have hat : r'.pos = (before ++ bs).length := by
      rw [hpos', hpos, List.length_append]
    apply (hf r' _ rest hnext hat hd').imp
    · rintro y r'' ⟨rfl, hbuf'', hpos'', hd''⟩
      refine ⟨rfl, hbuf''.trans hbuf', ?_, hd''⟩
      rw [hpos'', hpos', List.length_append, Nat.add_assoc]
    · intro e r'' h
      exact h
  · intro e r' h
    exact h

/-- A first step that reads nothing. -/
theorem Reads.skip {m : ReaderM α} {f : α → ReaderM β} {a : α} {b : β}
    (hm : Reads m d d₁ [] a) (hf : Reads (f a) d₁ d' bs b) : Reads (m >>= f) d d' bs b :=
  hm.bind hf

/-- A last step that reads nothing. -/
theorem Reads.finish {m : ReaderM α} {f : α → ReaderM β} {a : α} {b : β}
    (hm : Reads m d d₁ bs a) (hf : Reads (f a) d₁ d' [] b) : Reads (m >>= f) d d' bs b := by
  have h := hm.bind hf
  rwa [List.append_nil] at h

theorem Reads.get {f : Reader → ReaderM α} {a : α} (h : ∀ r, Reads (f r) d d' bs a) :
    Reads (get >>= f) d d' bs a := by
  intro r before rest hbuf hpos hd
  rw [ends_bind, ends_get]
  exact h r r before rest hbuf hpos hd

theorem Reads.times {m : ReaderM α} {code : α → List UInt8} {xs : List α}
    (h : ∀ x ∈ xs, Reads m d d (code x) x) :
    Reads (times m xs.length) d d (xs.flatMap code) xs := by
  induction xs with
  | nil => exact reads_pure
  | cons x xs ih =>
      have hx := h x List.mem_cons_self
      have hxs := ih fun y hy => h y (List.mem_cons_of_mem _ hy)
      rw [List.flatMap_cons]
      exact hx.bind (hxs.finish reads_pure)

/-! The steps of the decoder -/

theorem reads_enter (h : d < MAX_DEPTH) : Reads enter d (d + 1) [] () := by
  rintro r before rest - - rfl
  simp only [enter, ends_bind, ends_modify, ends_get]
  rw [if_neg (not_lt.mpr h)]
  exact ⟨trivial, rfl, rfl, rfl⟩

theorem reads_leave : Reads leave (d + 1) d [] () := by
  intro r before rest _ _ hd
  simp only [leave, ends_modify]
  refine ⟨trivial, trivial, rfl, ?_⟩
  rw [hd, Nat.add_sub_cancel]

theorem reads_with_capacity {pos capacity : Nat} :
    Reads (with_capacity pos capacity) d d [] () := by
  intro r before rest _ _ hd
  simp only [with_capacity, ends_modify]
  exact ⟨trivial, trivial, rfl, hd⟩

theorem reads_byte {b : UInt8} : Reads byte d d [b] b := by
  intro r before rest hbuf hpos hd
  have hb : r.buf[r.pos]? = some b := by
    rw [hbuf, hpos, List.getElem?_append_right le_rfl, Nat.sub_self]
    rfl
  simp only [byte, ends_bind, ends_get, hb, ends_set, ends_pure]
  exact ⟨trivial, trivial, rfl, hd⟩

theorem reads_bytes : Reads (bytes bs.length) d d bs bs := by
  intro r before rest hbuf hpos hd
  have hroom : ¬ r.buf.length < r.pos + bs.length := by
    simp only [hbuf, hpos, List.length_append]
    omega
  simp only [bytes, ends_bind, ends_get, if_neg hroom, ends_set, ends_pure]
  refine ⟨?_, trivial, trivial, hd⟩
  rw [hbuf, hpos, List.drop_left, List.take_left]

/-- A number of a fixed width, and what is made of it. -/
theorem reads_number {f : Nat → ReaderM α} {width n : Nat} {a : α} (h : n < 256 ^ width)
    (hlast : Reads (f n) d d [] a) :
    Reads (bytes width >>= fun bs => f (ofBytes bs)) d d (toBytes width n) a := by
  have hlast' : Reads (f (ofBytes (toBytes width n))) d d [] a := by rwa [ofBytes_toBytes h]
  have hbytes : Reads (bytes (toBytes width n).length) d d (toBytes width n) (toBytes width n) :=
    reads_bytes
  have hread := hbytes.finish (f := fun bs => f (ofBytes bs)) hlast'
  rwa [length_toBytes] at hread

/-- The size behind the marker of the 8, 16 or 32-bit form. -/
theorem reads_size {base : UInt8} {n k width : Nat}
    (hform : (k, width) ∈ [(0, 1), (1, 2), (2, 4)]) (h : n < 256 ^ width) :
    Reads (size (base + UInt8.ofNat k) base) d d (toBytes width n) n := by
  have hk : base + UInt8.ofNat k - base = UInt8.ofNat k := by
    rw [UInt8.add_comm, UInt8.add_sub_cancel]
  unfold size
  rw [hk]
  simp only [List.mem_cons, Prod.mk.injEq, List.not_mem_nil, or_false] at hform
  rcases hform with ⟨rfl, rfl⟩ | ⟨rfl, rfl⟩ | ⟨rfl, rfl⟩
  · rw [if_pos (show UInt8.ofNat 0 = 0 from rfl)]
    have hlast : Reads (pure (UInt8.ofNat n).toNat : ReaderM Nat) d d [] n := by
      rw [UInt8.toNat_ofNat_of_lt' h]
      exact reads_pure
    have htoBytes : toBytes 1 n = [UInt8.ofNat n] := by simp [toBytes]
    rw [htoBytes]
    exact reads_byte.finish hlast
  · exact reads_number (f := pure) h reads_pure
  · exact reads_number (f := pure) h reads_pure

/-! Markers -/

/-- The families of markers that carry a size. -/
structure Sized (value : ReaderM Value) (tiny base : UInt8) (read : Nat → ReaderM Value) :
    Prop where
  tiny : ∀ n < 16, marked value (tiny ||| UInt8.ofNat n) = read n
  sized : ∀ k < 3, marked value (base + UInt8.ofNat k) =
    (do read (← size (base + UInt8.ofNat k) base))

theorem sized_string (value : ReaderM Value) : Sized value 0x80 0xD0 string where
  tiny n hn := by interval_cases n <;> rfl
  sized k hk := by interval_cases k <;> rfl

theorem sized_list (value : ReaderM Value) : Sized value 0x90 0xD4 (list value) where
  tiny n hn := by interval_cases n <;> rfl
  sized k hk := by interval_cases k <;> rfl

theorem sized_dict (value : ReaderM Value) : Sized value 0xA0 0xD8 (dict value) where
  tiny n hn := by interval_cases n <;> rfl
  sized k hk := by interval_cases k <;> rfl

theorem marked_struct (value : ReaderM Value) {n : Nat} (hn : n < 16) :
    marked value (0xB0 ||| (UInt8.ofNat n &&& 0x0F)) = struct value n := by
  interval_cases n <;> rfl

theorem reads_marked {value : ReaderM Value} {m : UInt8} {a : Value}
    (h : Reads (marked value m) d d bs a) :
    Reads (do marked value (← byte)) d d (m :: bs) a :=
  reads_byte.bind h

theorem reads_header {value : ReaderM Value} {tiny base : UInt8} {read : Nat → ReaderM Value}
    (hsized : Sized value tiny base read) {n : Nat} (hn : n < 2 ^ 32) {a : Value}
    (h : Reads (read n) d d bs a) :
    Reads (do marked value (← byte)) d d (encode_header n tiny base ++ bs) a := by
  have hform : ∀ k < 3, ∀ width, (k, width) ∈ [(0, 1), (1, 2), (2, 4)] → n < 256 ^ width →
      Reads (do marked value (← byte)) d d
        ((base + UInt8.ofNat k) :: (toBytes width n ++ bs)) a := by
    intro k hk width hmem hwidth
    apply reads_marked
    rw [hsized.sized k hk]
    exact (reads_size hmem hwidth).bind h
  unfold encode_header
  split
  next hlt =>
    apply reads_marked
    rw [hsized.tiny n hlt]
    exact h
  next =>
    split
    next hlt =>
      have := hform 0 (by decide) 1 (by decide) hlt
      rwa [show UInt8.ofNat 0 = 0 from rfl, UInt8.add_zero] at this
    next =>
      split
      next hlt => exact hform 1 (by decide) 2 (by decide) hlt
      next => exact hform 2 (by decide) 4 (by decide) hn

/-! Numbers -/

theorem toInt8_toInt64 {i : Int64} (hlow : -128 ≤ i.toInt) (hhigh : i.toInt ≤ 127) :
    i.toInt8.toInt64 = i := by
  apply Int64.toInt_inj.mp
  rw [Int8.toInt_toInt64, Int64.toInt_toInt8]
  exact Int.bmod_eq_of_le (by omega) (by omega)

theorem toInt16_toInt64 {i : Int64} (hlow : -32768 ≤ i.toInt) (hhigh : i.toInt ≤ 32767) :
    i.toInt16.toInt64 = i := by
  apply Int64.toInt_inj.mp
  rw [Int16.toInt_toInt64, Int64.toInt_toInt16]
  exact Int.bmod_eq_of_le (by omega) (by omega)

theorem toInt32_toInt64 {i : Int64} (hlow : -2147483648 ≤ i.toInt)
    (hhigh : i.toInt ≤ 2147483647) : i.toInt32.toInt64 = i := by
  apply Int64.toInt_inj.mp
  rw [Int32.toInt_toInt64, Int64.toInt_toInt32]
  exact Int.bmod_eq_of_le (by omega) (by omega)

theorem toInt_toInt8 (m : UInt8) : m.toInt8.toInt = (m.toNat : Int).bmod (2 ^ 8) :=
  BitVec.toInt_eq_toNat_bmod _

/-- A byte of a tiny integer lies below the markers or above them. -/
theorem tiny_int {m : UInt8} (hm : -16 ≤ m.toInt8) : m ≤ 0x7F ∨ 0xF0 ≤ m := by
  rw [Int8.le_iff_toInt_le, toInt_toInt8, Int.bmod_def] at hm
  change -16 ≤ if (m.toNat : Int) % 256 < 128 then _ else _ at hm
  change m.toNat ≤ 127 ∨ 240 ≤ m.toNat
  have hlt : m.toNat < 256 := m.toNat_lt
  split at hm <;> omega

/-- A byte below the markers is the integer it stands for. -/
theorem toInt64_of_le {m : UInt8} (hm : m ≤ 0x7F) : m.toUInt64.toInt64 = m.toInt8.toInt64 := by
  change m.toNat ≤ 127 at hm
  have h64 : m.toUInt64.toInt64.toInt = (m.toUInt64.toNat : Int).bmod (2 ^ 64) :=
    BitVec.toInt_eq_toNat_bmod _
  apply Int64.toInt_inj.mp
  rw [Int8.toInt_toInt64, toInt_toInt8, h64, UInt8.toNat_toUInt64,
    Int.bmod_eq_of_le (by omega) (by omega), Int.bmod_eq_of_le (by omega) (by omega)]

theorem marked_tiny_int (value : ReaderM Value) {m : UInt8} (hm : -16 ≤ m.toInt8) :
    marked value m = pure (.int m.toInt8.toInt64) := by
  have hne : ∀ k : UInt8, 0x7F < k → k < 0xF0 → m ≠ k := by
    rintro k hlow hhigh rfl
    rcases tiny_int hm with h | h
    · exact absurd hlow (UInt8.not_lt.mpr h)
    · exact absurd hhigh (UInt8.not_lt.mpr h)
  unfold marked
  rw [if_neg (hne 0xC0 (by decide) (by decide)), if_neg (hne 0xC2 (by decide) (by decide)),
    if_neg (hne 0xC3 (by decide) (by decide)), if_neg (hne 0xC1 (by decide) (by decide)),
    if_neg (hne 0xC8 (by decide) (by decide)), if_neg (hne 0xC9 (by decide) (by decide)),
    if_neg (hne 0xCA (by decide) (by decide)), if_neg (hne 0xCB (by decide) (by decide))]
  split
  next hlow => rw [toInt64_of_le hlow]
  next hlow =>
    rw [if_pos ((tiny_int hm).resolve_left hlow)]

theorem reads_int (value : ReaderM Value) (i : Int64) :
    Reads (do marked value (← byte)) d d (encode_int i) (.int i) := by
  unfold encode_int
  simp only [Int64.le_iff_toInt_le]
  split
  next h =>
    change -16 ≤ i.toInt ∧ i.toInt ≤ 127 at h
    have hback : i.toInt8.toInt64 = i := toInt8_toInt64 (by omega) h.2
    have hlow : -16 ≤ i.toInt8.toUInt8.toInt8 := by
      rw [Int8.toInt8_toUInt8, Int8.le_iff_toInt_le, ← Int8.toInt_toInt64 i.toInt8, hback]
      exact h.1
    apply reads_marked
    rw [marked_tiny_int value hlow, Int8.toInt8_toUInt8, hback]
    exact reads_pure
  next =>
    split
    next h =>
      change -128 ≤ i.toInt ∧ i.toInt ≤ 127 at h
      apply reads_marked
      have hlast : Reads (pure (.int i.toInt8.toUInt8.toInt8.toInt64) : ReaderM Value) d d []
          (.int i) := by
        rw [Int8.toInt8_toUInt8, toInt8_toInt64 h.1 h.2]
        exact reads_pure
      exact reads_byte.finish hlast
    next =>
      split
      next h =>
        change -32768 ≤ i.toInt ∧ i.toInt ≤ 32767 at h
        apply reads_marked
        have hlast : Reads (pure (.int (UInt16.ofNat i.toInt16.toUInt16.toNat).toInt16.toInt64) :
            ReaderM Value) d d [] (.int i) := by
          rw [UInt16.ofNat_toNat, Int16.toInt16_toUInt16, toInt16_toInt64 h.1 h.2]
          exact reads_pure
        exact reads_number (f := fun n => pure (Value.int (UInt16.ofNat n).toInt16.toInt64))
            i.toInt16.toUInt16.toNat_lt hlast
      next =>
        split
        next h =>
          change -2147483648 ≤ i.toInt ∧ i.toInt ≤ 2147483647 at h
          apply reads_marked
          have hlast : Reads
              (pure (.int (UInt32.ofNat i.toInt32.toUInt32.toNat).toInt32.toInt64) :
                ReaderM Value) d d [] (.int i) := by
            rw [UInt32.ofNat_toNat, Int32.toInt32_toUInt32, toInt32_toInt64 h.1 h.2]
            exact reads_pure
          exact reads_number (f := fun n => pure (Value.int (UInt32.ofNat n).toInt32.toInt64))
            i.toInt32.toUInt32.toNat_lt hlast
        next =>
          apply reads_marked
          have hlast : Reads (pure (.int (UInt64.ofNat i.toUInt64.toNat).toInt64) :
              ReaderM Value) d d [] (.int i) := by
            rw [UInt64.ofNat_toNat, Int64.toInt64_toUInt64]
            exact reads_pure
          exact reads_number (f := fun n => pure (Value.int (UInt64.ofNat n).toInt64))
            i.toUInt64.toNat_lt hlast

theorem reads_float (value : ReaderM Value) (bits : UInt64) :
    Reads (do marked value (← byte)) d d (0xC1 :: toBytes 8 bits.toNat) (.float bits) := by
  apply reads_marked
  have hlast : Reads (pure (.float (UInt64.ofNat bits.toNat)) : ReaderM Value) d d []
      (.float bits) := by
    rw [UInt64.ofNat_toNat]
    exact reads_pure
  exact reads_number (f := fun n => pure (Value.float (UInt64.ofNat n))) bits.toNat_lt hlast

/-! Strings and containers -/

theorem reads_string {s : String} (hs : (as_bytes s).length < 2 ^ 32) (value : ReaderM Value) :
    Reads (do marked value (← byte)) d d (encode_string s) (.string s) := by
  apply reads_header (sized_string value) hs
  apply Reads.get
  intro r
  have hlast : Reads (pure (.string (from_utf8_lossy (as_bytes s))) : ReaderM Value) d d []
      (.string s) := by
    rw [from_utf8_lossy_as_bytes]
    exact reads_pure
  exact reads_bytes.finish (reads_with_capacity.skip hlast)

theorem reads_list {value : ReaderM Value} {code : Value → List UInt8} {xs : List Value}
    (hd : d < MAX_DEPTH) (h : ∀ x ∈ xs, Reads value (d + 1) (d + 1) (code x) x) :
    Reads (list value xs.length) d d (xs.flatMap code) (.list xs) := by
  apply (reads_enter hd).skip
  apply Reads.get
  intro r
  apply reads_with_capacity.skip
  exact (Reads.times h).finish (reads_leave.skip reads_pure)

theorem reads_struct {value : ReaderM Value} {code : Value → List UInt8} {sig : UInt8}
    {fields : List Value} (hd : d < MAX_DEPTH)
    (h : ∀ x ∈ fields, Reads value (d + 1) (d + 1) (code x) x) :
    Reads (struct value fields.length) d d (sig :: fields.flatMap code) (.struct sig fields) := by
  apply (reads_enter hd).skip
  apply (reads_byte (b := sig)).bind
  apply Reads.get
  intro r
  apply reads_with_capacity.skip
  exact (Reads.times h).finish (reads_leave.skip reads_pure)

/-- The entries that are still to be read come behind those already in the map. -/
theorem reads_entries {value : ReaderM Value} {key : String → List UInt8}
    {code : Value → List UInt8} {m m' : List (String × Value)} (hordered : Ordered (m' ++ m))
    (hkey : ∀ e ∈ m, Reads value d d (key e.1) (.string e.1))
    (hvalue : ∀ e ∈ m, Reads value d d (code e.2) e.2) :
    Reads (entries value m.length m') d d (m.flatMap fun e => key e.1 ++ code e.2)
      (m' ++ m) := by
  induction m generalizing m' with
  | nil =>
      rw [List.append_nil]
      exact reads_pure
  | cons e m ih =>
      obtain ⟨k, v⟩ := e
      have hinsert : insert k v m' = m' ++ [(k, v)] := by
        apply insert_of_lt
        intro k' hk'
        unfold Ordered at hordered
        rw [List.map_append, List.pairwise_append] at hordered
        exact hordered.2.2 k' hk' k List.mem_cons_self
      rw [List.append_cons] at hordered ⊢
      have hrest := ih hordered (fun e he => hkey e (List.mem_cons_of_mem _ he))
        (fun e he => hvalue e (List.mem_cons_of_mem _ he))
      rw [List.flatMap_cons, List.append_assoc]
      apply (hkey (k, v) List.mem_cons_self).bind
      apply (hvalue (k, v) List.mem_cons_self).bind
      rw [hinsert]
      exact hrest

theorem reads_dict {value : ReaderM Value} {key : String → List UInt8}
    {code : Value → List UInt8} {m : List (String × Value)} (hordered : Ordered m)
    (hd : d < MAX_DEPTH)
    (hkey : ∀ e ∈ m, Reads value (d + 1) (d + 1) (key e.1) (.string e.1))
    (hvalue : ∀ e ∈ m, Reads value (d + 1) (d + 1) (code e.2) e.2) :
    Reads (dict value m.length) d d (m.flatMap fun e => key e.1 ++ code e.2) (.map m) := by
  apply (reads_enter hd).skip
  have hentries : Reads (entries value m.length []) (d + 1) (d + 1)
      (m.flatMap fun e => key e.1 ++ code e.2) ([] ++ m) :=
    reads_entries hordered hkey hvalue
  exact hentries.finish (reads_leave.skip reads_pure)

theorem encodeAll_eq (xs : List Value) : encodeAll xs = xs.flatMap encode := by
  induction xs with
  | nil => rfl
  | cons x xs ih => rw [encodeAll, ih, List.flatMap_cons]

theorem encodeEntries_eq (m : List (String × Value)) :
    encodeEntries m = m.flatMap fun e => encode_string e.1 ++ encode e.2 := by
  induction m with
  | nil => rfl
  | cons e m ih => rw [encodeEntries, ih, List.flatMap_cons]

/-! Values -/

/-- Every map in the value keeps its keys in order, as a `BTreeMap` does. -/
def Sorted : Value → Prop :=
  Value.Everywhere fun
    | .map m => Ordered m
    | _ => True

/-- Every length in the value fits into 32 bits. -/
def Short : Value → Prop :=
  Value.Everywhere fun
    | .string s => (as_bytes s).length < 2 ^ 32
    | .list xs => xs.length < 2 ^ 32
    | .map m => m.length < 2 ^ 32 ∧ ∀ e ∈ m, (as_bytes e.1).length < 2 ^ 32
    | _ => True

/-- No structure in the value has more than 15 fields. -/
def Narrow : Value → Prop :=
  Value.Everywhere fun
    | .struct _ fields => fields.length ≤ 15
    | _ => True

theorem reads_value (v : Value) : Sorted v → Short v → Narrow v → ∀ frames d,
    v.depth < frames → d + v.depth ≤ MAX_DEPTH → Reads (value frames) d d (encode v) v := by
  induction v using Value.nested with
  | step v ih =>
      intro hsorted hshort hnarrow frames d hframes hdepth
      obtain ⟨frames, rfl⟩ := Nat.exists_eq_succ_of_ne_zero (Nat.ne_zero_of_lt hframes)
      have hinside : ∀ c ∈ v.children, c.depth < frames → d + 1 + c.depth ≤ MAX_DEPTH →
          Reads (value frames) (d + 1) (d + 1) (encode c) c := by
        intro c hc
        exact ih c hc (hsorted.inside hc) (hshort.inside hc) (hnarrow.inside hc) frames (d + 1)
      cases v with
      | null => exact reads_marked reads_pure
      | bool b => cases b <;> exact reads_marked reads_pure
      | float bits => exact reads_float _ bits
      | int i => exact reads_int _ i
      | string s => exact reads_string hshort.here _
      | list xs =>
          rw [encode, encodeAll_eq]
          apply reads_header (sized_list _) hshort.here
          rw [Value.depth] at hframes hdepth
          apply reads_list (by omega)
          intro x hx
          have hle := Value.depth_le_depthAll hx
          exact hinside x hx (by omega) (by omega)
      | map m =>
          rw [encode, encodeEntries_eq]
          apply reads_header (sized_dict _) hshort.here.1
          rw [Value.depth] at hframes hdepth
          apply reads_dict hsorted.here (by omega)
          · intro e he
            obtain ⟨frames, rfl⟩ : ∃ n, frames = n + 1 :=
              Nat.exists_eq_succ_of_ne_zero (by omega)
            exact reads_string (hshort.here.2 e he) _
          · intro e he
            have hle := Value.depth_le_depthEntries he
            exact hinside e.2 (List.mem_map_of_mem he) (by omega) (by omega)
      | struct sig fields =>
          rw [encode, encodeAll_eq]
          apply reads_marked
          have hfields : fields.length ≤ 15 := hnarrow.here
          rw [marked_struct _ (by omega)]
          rw [Value.depth] at hframes hdepth
          apply reads_struct (by omega)
          intro x hx
          have hle := Value.depth_le_depthAll hx
          exact hinside x hx (by omega) (by omega)

/-- Decoding the encoder's output with anything behind it gives the value back and stops at its
end. -/
theorem decode_encode_append (v : Value) (hsorted : Sorted v) (hshort : Short v)
    (hnarrow : Narrow v) (hdepth : v.depth ≤ MAX_DEPTH) (rest : List UInt8) :
    ∃ r, decode (encode v ++ rest) = .ok v r ∧ r.pos = (encode v).length := by
  have hread := reads_value v hsorted hshort hnarrow FRAMES 0 (Nat.lt_succ_of_le hdepth)
    (by rwa [Nat.zero_add])
  obtain ⟨a, r, hrun, rfl, -, hpos, -⟩ := (hread (new (encode v ++ rest)) [] rest rfl rfl rfl).eq_ok
  refine ⟨r, hrun, ?_⟩
  rw [hpos]
  exact Nat.zero_add _

theorem decode_encode_append_node :
    let node := Value.struct 0x4E [.int 42, .list [.string "Movie"], .map [("released", .int 1999)]]
    ∃ r, decode (encode node ++ [0x91]) = .ok node r ∧ r.pos = (encode node).length := by
  apply decode_encode_append
  · simp [Sorted, Ordered]
  · simp [Short]
    decide
  · simp [Narrow]
  · decide

/-- No value is encoded as a byte array, and the decoder refuses the marker of one. -/
theorem decode_byte_array : ∃ r, decode [0xCC, 0x01, 0x07] = .error (.unknownMarker 0xCC) r :=
  ⟨_, rfl⟩

/-! Lengths -/

theorem encode_header_ne_nil {n : Nat} {tiny base : UInt8} : encode_header n tiny base ≠ [] := by
  unfold encode_header
  split_ifs <;> exact List.cons_ne_nil _ _

theorem encode_ne_nil (v : Value) : encode v ≠ [] := by
  cases v with
  | null | float _ | struct _ _ => exact List.cons_ne_nil _ _
  | bool b => cases b <;> exact List.cons_ne_nil _ _
  | int i =>
      rw [encode, encode_int]
      split_ifs <;> exact List.cons_ne_nil _ _
  | string s => exact List.append_ne_nil_of_left_ne_nil encode_header_ne_nil _
  | list xs => exact List.append_ne_nil_of_left_ne_nil encode_header_ne_nil _
  | map m => exact List.append_ne_nil_of_left_ne_nil encode_header_ne_nil _

theorem length_le_length_flatMap {xs : List α} {code : α → List UInt8}
    (h : ∀ x ∈ xs, code x ≠ []) : xs.length ≤ (xs.flatMap code).length := by
  induction xs with
  | nil => exact Nat.zero_le _
  | cons x xs ih =>
      have hx := List.length_pos_iff.mpr (h x List.mem_cons_self)
      have hxs := ih fun y hy => h y (List.mem_cons_of_mem _ hy)
      rw [List.flatMap_cons, List.length_append, List.length_cons]
      omega

theorem length_code_le_length_flatMap {xs : List α} {x : α} (code : α → List UInt8)
    (hx : x ∈ xs) : (code x).length ≤ (xs.flatMap code).length := by
  obtain ⟨before, after, rfl⟩ := List.append_of_mem hx
  simp only [List.flatMap_append, List.flatMap_cons, List.length_append]
  omega

theorem length_encode_le_of_mem_children {v c : Value} (hc : c ∈ v.children) :
    (encode c).length ≤ (encode v).length := by
  cases v with
  | null | bool _ | int _ | float _ | string _ => cases hc
  | list xs =>
      rw [encode, encodeAll_eq, List.length_append]
      exact (length_code_le_length_flatMap encode hc).trans (Nat.le_add_left _ _)
  | map m =>
      obtain ⟨e, he, rfl⟩ := List.mem_map.mp hc
      have hentry := length_code_le_length_flatMap
        (fun e : String × Value => encode_string e.1 ++ encode e.2) he
      rw [List.length_append] at hentry
      rw [encode, encodeEntries_eq, List.length_append]
      omega
  | struct sig fields =>
      rw [encode, encodeAll_eq, List.length_append]
      exact (length_code_le_length_flatMap encode hc).trans (Nat.le_add_left _ _)

theorem length_as_bytes_le (s : String) : (as_bytes s).length ≤ (encode_string s).length := by
  rw [encode_string, List.length_append]
  omega

/-- Lengths of 32 bits and more do not fit into an encoding that is shorter. -/
theorem short_of_length (v : Value) : (encode v).length < 2 ^ 32 → Short v := by
  induction v using Value.nested with
  | step v ih =>
      intro hlength
      apply Value.Everywhere.intro
      · cases v with
        | null | bool _ | int _ | float _ | struct _ _ => trivial
        | string s => exact (length_as_bytes_le s).trans_lt hlength
        | list xs =>
            rw [encode, encodeAll_eq, List.length_append] at hlength
            have hcount := length_le_length_flatMap fun x (_ : x ∈ xs) => encode_ne_nil x
            change xs.length < 2 ^ 32
            omega
        | map m =>
            rw [encode, encodeEntries_eq, List.length_append] at hlength
            have hcount : m.length ≤ (m.flatMap fun e => encode_string e.1 ++ encode e.2).length :=
              length_le_length_flatMap fun e _ =>
                List.append_ne_nil_of_right_ne_nil _ (encode_ne_nil e.2)
            refine ⟨by omega, ?_⟩
            intro e he
            have hkey := length_as_bytes_le e.1
            have hentry := length_code_le_length_flatMap
              (fun e : String × Value => encode_string e.1 ++ encode e.2) he
            rw [List.length_append] at hentry
            omega
      · intro c hc
        apply ih c hc
        exact (length_encode_le_of_mem_children hc).trans_lt hlength

/-! Chunks -/

theorem flatten_chunks {n : Nat} (hn : 0 < n) (xs : List α) : (chunks n xs).flatten = xs := by
  fun_induction chunks n xs with
  | case1 xs => cases hn
  | case2 n hne => rfl
  | case3 n x xs ih =>
      rw [List.flatten_cons, ih hn, List.cons_append, List.take_append_drop]

theorem length_of_mem_chunks {n : Nat} {xs c : List α} (hc : c ∈ chunks n xs) :
    c ≠ [] ∧ c.length ≤ n := by
  fun_induction chunks n xs with
  | case1 xs => cases hc
  | case2 n hne => cases hc
  | case3 n x xs ih =>
      rcases List.mem_cons.mp hc with rfl | hc
      · refine ⟨List.cons_ne_nil _ _, ?_⟩
        rw [List.length_cons, List.length_take]
        omega
      · exact ih hc

/-- Empty chunks, as many as given. -/
def idle (n : Nat) : List UInt8 :=
  (List.replicate n [0, 0]).flatten

theorem ofBytes_zero : ofBytes [0, 0] = 0 := by decide

theorem read_body_cons {hi lo : UInt8} {body input : List UInt8} {empty : Nat} :
    read_body body empty (hi :: lo :: input) =
      if ofBytes [hi, lo] = 0 then
        if body = [] then
          if MAX_EMPTY_CHUNKS < empty + 1 then .error .emptyChunks
          else read_body body (empty + 1) input
        else .ok (body, input)
      else if MAX_MESSAGE < body.length + ofBytes [hi, lo] then .error .longerMessage
      else if ofBytes [hi, lo] ≤ input.length then
        read_body (body ++ input.take (ofBytes [hi, lo])) empty (input.drop (ofBytes [hi, lo]))
      else .error .shortRead := by
  rw [read_body]
  rfl

theorem read_body_idle {empty n : Nat} (hn : empty + n ≤ MAX_EMPTY_CHUNKS) (input : List UInt8) :
    read_body [] empty (idle n ++ input) = read_body [] (empty + n) input := by
  induction n generalizing empty with
  | zero => rfl
  | succ n ih =>
      have hstep : read_body [] empty (0 :: 0 :: (idle n ++ input)) =
          read_body [] (empty + 1) (idle n ++ input) := by
        rw [read_body_cons, if_pos ofBytes_zero, if_pos rfl, if_neg (by omega)]
      change read_body [] empty (0 :: 0 :: (idle n ++ input)) = _
      rw [hstep, ih (by omega), Nat.add_assoc, Nat.add_comm 1]

theorem read_body_end {body : List UInt8} (hbody : body ≠ []) {empty : Nat}
    {rest : List UInt8} : read_body body empty ([0, 0] ++ rest) = .ok (body, rest) := by
  change read_body body empty (0 :: 0 :: rest) = _
  rw [read_body_cons, if_pos ofBytes_zero, if_neg hbody]

/-- What the loop does with one chunk. -/
theorem read_body_chunk {body part input : List UInt8} {empty : Nat} (hpart : part ≠ [])
    (hlength : part.length ≤ 65535) :
    read_body body empty (chunk part ++ input) =
      if MAX_MESSAGE < body.length + part.length then .error .longerMessage
      else read_body (body ++ part) empty input := by
  have hnumber : ofBytes (toBytes 2 part.length) = part.length := ofBytes_toBytes (by omega)
  have hpos : part.length ≠ 0 := by
    rw [Ne, List.length_eq_zero_iff]
    exact hpart
  have hform : chunk part ++ input =
      UInt8.ofNat (part.length / 256) :: UInt8.ofNat part.length :: (part ++ input) := by
    simp [chunk, toBytes]
  have hbytes : toBytes 2 part.length =
      [UInt8.ofNat (part.length / 256), UInt8.ofNat part.length] := by
    simp [toBytes]
  rw [hform, read_body_cons, ← hbytes, hnumber, if_neg hpos]
  split
  · rfl
  · rw [if_pos (by simp), List.take_left, List.drop_left]

/-- The loop puts the parts of a body together, whatever chunks they come in. -/
theorem read_body_parts {parts : List (List UInt8)} {body : List UInt8}
    (hparts : ∀ p ∈ parts, p ≠ [] ∧ p.length ≤ 65535) (hbody : body ++ parts.flatten ≠ [])
    (hlimit : body.length ≤ MAX_MESSAGE) (empty : Nat) (rest : List UInt8) :
    read_body body empty (parts.flatMap chunk ++ [0, 0] ++ rest) =
      if MAX_MESSAGE < body.length + parts.flatten.length then .error .longerMessage
      else .ok (body ++ parts.flatten, rest) := by
  induction parts generalizing body with
  | nil =>
      rw [List.flatten_nil, List.append_nil] at hbody ⊢
      rw [if_neg (by simpa using hlimit)]
      exact read_body_end hbody
  | cons part parts ih =>
      obtain ⟨hne, hlength⟩ := hparts part List.mem_cons_self
      rw [List.flatMap_cons, List.append_assoc, List.append_assoc, ← List.append_assoc _ [0, 0],
        read_body_chunk hne hlength, List.flatten_cons, List.length_append]
      split
      next hlong => rw [if_pos (by omega)]
      next hfits =>
        rw [ih (fun p hp => hparts p (List.mem_cons_of_mem _ hp)) (by simp [hne])
          (by rw [List.length_append]; omega), List.length_append, List.append_assoc,
          Nat.add_assoc]

/-- A message that fits is decoded from its body, one that does not is refused. -/
theorem read_message_parts {parts : List (List UInt8)} {msg : Value}
    (hparts : ∀ p ∈ parts, p ≠ [] ∧ p.length ≤ 65535) (hmsg : parts.flatten = encode msg)
    (empty : Nat) (hempty : empty ≤ MAX_EMPTY_CHUNKS) (rest : List UInt8) :
    read_message (idle empty ++ (parts.flatMap chunk ++ [0, 0] ++ rest)) =
      if MAX_MESSAGE < (encode msg).length then .error .longerMessage
      else match decode (encode msg) with
        | .ok v _ => .ok (v, rest)
        | .error e _ => .error e := by
  have hbody : [] ++ parts.flatten ≠ [] := by
    rw [List.nil_append, hmsg]
    exact encode_ne_nil msg
  have hread := read_body_parts hparts hbody (Nat.zero_le _) empty rest
  rw [List.length_nil, Nat.zero_add, hmsg] at hread
  unfold read_message
  rw [read_body_idle (by omega), Nat.zero_add, hread]
  split
  · rfl
  · rfl

theorem read_message_write (msg : Value) :
    read_message (write_message msg) =
      if MAX_MESSAGE < (encode msg).length then .error .longerMessage
      else match decode (encode msg) with
        | .ok v _ => .ok (v, [])
        | .error e _ => .error e := by
  have hread := read_message_parts (fun p hp => length_of_mem_chunks hp)
    (flatten_chunks (by decide) (encode msg)) 0 (Nat.zero_le _) []
  rwa [List.append_nil] at hread

/-- However a message that fits is cut into chunks and whatever comes behind it, it is read back
and nothing else is; a longer one is refused. -/
theorem read_message_of_chunks (msg : Value) (hsorted : Sorted msg) (parts : List (List UInt8))
    (hparts : ∀ p ∈ parts, p ≠ [] ∧ p.length ≤ 65535) (hmsg : parts.flatten = encode msg)
    (empty : Nat) (hempty : empty ≤ MAX_EMPTY_CHUNKS) (rest : List UInt8) :
    ((encode msg).length ≤ MAX_MESSAGE → msg.depth ≤ MAX_DEPTH → Narrow msg →
      read_message (idle empty ++ (parts.flatMap chunk ++ [0, 0] ++ rest)) = .ok (msg, rest)) ∧
    (MAX_MESSAGE < (encode msg).length →
      read_message (idle empty ++ (parts.flatMap chunk ++ [0, 0] ++ rest)) =
        .error .longerMessage) ∧
    ∃ own : List (List UInt8), (∀ p ∈ own, p ≠ [] ∧ p.length ≤ 65535) ∧
      own.flatten = encode msg ∧ write_message msg = own.flatMap chunk ++ [0, 0] := by
  have hread := read_message_parts hparts hmsg empty hempty rest
  refine ⟨?_, ?_, ?_⟩
  · intro hlimit hdepth hnarrow
    have hshort : Short msg := by
      apply short_of_length
      unfold MAX_MESSAGE at hlimit
      omega
    obtain ⟨r, hdecode, -⟩ := decode_encode_append msg hsorted hshort hnarrow hdepth []
    rw [List.append_nil] at hdecode
    rw [hread, if_neg (by omega), hdecode]
  · intro hlimit
    rw [hread, if_pos hlimit]
  · exact ⟨chunks 65535 (encode msg), fun p hp => length_of_mem_chunks hp,
      flatten_chunks (by decide) _, rfl⟩

theorem read_message_of_chunks_reset :
    let msg := Value.struct 0x0F []
    ((encode msg).length ≤ MAX_MESSAGE → msg.depth ≤ MAX_DEPTH → Narrow msg →
      read_message (idle 2 ++ ([[0xB0], [0x0F]].flatMap chunk ++ [0, 0] ++ [0])) =
        .ok (msg, [0])) ∧
    (MAX_MESSAGE < (encode msg).length →
      read_message (idle 2 ++ ([[0xB0], [0x0F]].flatMap chunk ++ [0, 0] ++ [0])) =
        .error .longerMessage) ∧
    ∃ own : List (List UInt8), (∀ p ∈ own, p ≠ [] ∧ p.length ≤ 65535) ∧
      own.flatten = encode msg ∧ write_message msg = own.flatMap chunk ++ [0, 0] :=
  read_message_of_chunks (.struct 0x0F []) (by simp [Sorted]) [[0xB0], [0x0F]] (by decide)
    (by decide) 2 (by decide) [0]

/-- A list of a list, and so on, around null. -/
def nest : Nat → Value
  | 0 => .null
  | n + 1 => .list [nest n]

theorem encode_nest_succ (n : Nat) : encode (nest (n + 1)) = 0x91 :: encode (nest n) := by
  rw [nest, encode, encodeAll, encodeAll, List.append_nil, encode_header, List.length_singleton,
    if_pos (by decide)]
  rfl

/-- Lists past the limit are refused where the limit is reached. -/
theorem ends_nest {n : Nat} (hn : MAX_DEPTH < d + n) (hd : d ≤ MAX_DEPTH) {frames : Nat}
    (hframes : MAX_DEPTH < d + frames) (before rest : List UInt8) {r : Reader}
    (hbuf : r.buf = before ++ (encode (nest n) ++ rest)) (hpos : r.pos = before.length)
    (hdepth : r.depth = d) :
    Ends (value frames) (fun _ _ => False) (fun e _ => e = .nestingDeeper) r := by
  induction n generalizing d frames r before with
  | zero => omega
  | succ n ih =>
      obtain ⟨frames, rfl⟩ : ∃ k, frames = k + 1 := Nat.exists_eq_succ_of_ne_zero (by omega)
      rw [encode_nest_succ] at hbuf
      rw [value, ends_bind]
      have hbyte : Reads byte d d [0x91] 0x91 := reads_byte
      apply (hbyte r before (encode (nest n) ++ rest) hbuf hpos hdepth).imp
      · rintro m r' ⟨rfl, hbuf', hpos', hdepth'⟩
        have hlist : marked (value frames) 0x91 = list (value frames) 1 :=
          (sized_list _).tiny 1 (by decide)
        rw [hlist]
        simp only [list, enter, with_capacity, times, ends_bind, ends_modify, ends_get]
        split
        next => rfl
        next hroom =>
          rw [hdepth'] at hroom
          rw [ends_pure]
          apply (ih (d := d + 1) (by omega) (by omega) (by omega) (before ++ [0x91])
            (by simp [hbuf', hbuf]) (by simp [hpos', hpos]) (by simp [hdepth'])).imp
          · intro v r'' h
            exact h.elim
          · intro e r'' h
            exact h
      · intro e r' h
        exact h.elim

/-- Lists past the limit are refused whenever they come in a message. -/
theorem read_message_nest {n : Nat} (hn : MAX_DEPTH < n)
    (hlimit : (encode (nest n)).length ≤ MAX_MESSAGE) :
    read_message (write_message (nest n)) = .error .nestingDeeper := by
  have hread := read_message_write (nest n)
  have hrefused : Ends (value FRAMES) (fun _ _ => False) (fun e _ => e = .nestingDeeper)
      (new (encode (nest n))) :=
    ends_nest (by omega) (Nat.zero_le _) (by decide) [] [] (List.append_nil _).symm rfl rfl
  obtain ⟨e, r, hdecode, rfl⟩ := hrefused.eq_error
  rw [hread, if_neg (not_lt.mpr hlimit), decode, hdecode]

theorem length_encode_nest (n : Nat) : (encode (nest n)).length = n + 1 := by
  induction n with
  | zero => rfl
  | succ n ih => rw [encode_nest_succ, List.length_cons, ih]

/-- One list more than the decoder follows. -/
theorem read_message_nest_limit :
    (encode (nest 65)).length ≤ MAX_MESSAGE ∧
      read_message (write_message (nest 65)) = .error .nestingDeeper := by
  have hlimit : (encode (nest 65)).length ≤ MAX_MESSAGE := by
    rw [length_encode_nest]
    decide
  exact ⟨hlimit, read_message_nest (by decide) hlimit⟩

end OntologicalDb.PackStreamRoundTrip
