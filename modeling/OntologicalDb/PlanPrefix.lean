import Mathlib
import OntologicalDb.BoltSession

/-!
The prefix of a query that asks for its plan.
-/

namespace OntologicalDb.PlanPrefix

open OntologicalDb.BoltSession

section Bytes

variable {c : Char} {cs a b : List Char} {n : Nat}

/-- The length of a text in bytes. -/
def bytes (cs : List Char) : Nat := (cs.map Char.utf8Size).sum

theorem bytes_cons : bytes (c :: cs) = c.utf8Size + bytes cs := rfl

theorem bytes_append : bytes (a ++ b) = bytes a + bytes b := by
  rw [bytes, List.map_append, List.sum_append]
  rfl

/-- No character of the text lies across its `n`-th byte. -/
def Boundary (n : Nat) (cs : List Char) : Prop :=
  n < bytes cs → ∃ a b, cs = a ++ b ∧ bytes a = n

theorem split_at_succ : split_at (n + 1) (c :: cs) =
    if c.utf8Size ≤ n + 1 then
      (split_at (n + 1 - c.utf8Size) cs).map fun p => (c :: p.1, p.2)
    else none := rfl

theorem split_at_append : split_at (bytes a) (a ++ b) = some (a, b) := by
  induction a with
  | nil => cases b <;> rfl
  | cons c a ih =>
      have hpos := c.utf8Size_pos
      rw [bytes_cons]
      cases hn : c.utf8Size + bytes a with
      | zero => omega
      | succ n =>
          rw [List.cons_append, split_at_succ, if_pos (by omega), ← hn, Nat.add_sub_cancel_left, ih]
          rfl

theorem of_split_at (h : split_at n cs = some (a, b)) : cs = a ++ b ∧ bytes a = n := by
  induction cs generalizing n a b with
  | nil =>
      cases n with
      | zero =>
          rcases Prod.mk.inj (Option.some.inj h) with ⟨rfl, rfl⟩
          exact ⟨rfl, rfl⟩
      | succ n => cases h
  | cons c cs ih =>
      cases n with
      | zero =>
          rcases Prod.mk.inj (Option.some.inj h) with ⟨rfl, rfl⟩
          exact ⟨rfl, rfl⟩
      | succ n =>
          rw [split_at_succ] at h
          split at h
          next hle =>
            rcases Option.map_eq_some_iff.mp h with ⟨⟨a', b'⟩, hrest, heq⟩
            rcases Prod.mk.inj heq with ⟨rfl, rfl⟩
            rcases ih hrest with ⟨rfl, hbytes⟩
            refine ⟨rfl, ?_⟩
            rw [bytes_cons, hbytes]
            exact Nat.add_sub_cancel' hle
          next => cases h

theorem utf8Size_of_toLower (h : c.toLower.toNat < 128) : c.utf8Size = 1 := by
  have hc : c.toNat < 128 := by
    unfold Char.toLower at h
    split at h
    next hrange =>
      have hle : c.toNat ≤ 'Z'.toNat := hrange.2
      exact hle.trans_lt (by decide)
    next => exact h
  refine Char.utf8Size_eq_one_iff.mpr ?_
  exact UInt32.le_iff_toNat_le.mpr (Nat.le_of_lt_succ hc)

end Bytes

section Words

variable {words : List String} {len : Nat} {cs rest : List Char}

/-- The text opens with one of the words, in any case, and a blank; the blank and what follows. -/
def Opens (words : List String) (cs rest : List Char) : Prop :=
  ∃ kw c r, cs = kw ++ c :: r ∧ (∃ w ∈ words, w.toList = kw.map Char.toLower) ∧
    is_ascii_whitespace c = true ∧ rest = c :: r

/-- The words are of ASCII and as many bytes long. -/
def Sized (words : List String) (len : Nat) : Prop :=
  ∀ w ∈ words, w.toList.length = len ∧ w.toList.all (fun c => c.toNat < 128) = true

theorem leading_none (h : leading words len cs = none) : ¬ Boundary len cs := by
  unfold leading at h
  split at h
  next hlong =>
    intro hboundary
    rcases hboundary hlong with ⟨a, b, rfl, rfl⟩
    rw [split_at_append] at h
    cases h
  next => cases h

theorem bytes_of_lower {kw : List Char} (h : ∀ c ∈ kw.map Char.toLower, c.toNat < 128) :
    bytes kw = kw.length := by
  induction kw with
  | nil => rfl
  | cons c kw ih =>
      rcases List.forall_mem_cons.mp h with ⟨hc, hrest⟩
      rw [bytes_cons, utf8Size_of_toLower hc, ih hrest, List.length_cons, Nat.add_comm]

theorem leading_some (hsized : Sized words len) (h : Opens words cs rest) :
    leading words len cs = some (some rest) := by
  rcases h with ⟨kw, c, r, rfl, ⟨w, hw, hkw⟩, hc, rfl⟩
  rcases hsized w hw with ⟨hlen, hascii⟩
  rw [hkw] at hlen hascii
  rw [List.length_map] at hlen
  have hlower : ∀ c ∈ kw.map Char.toLower, c.toNat < 128 :=
    fun c hc => of_decide_eq_true (List.all_eq_true.mp hascii c hc)
  have hbytes : bytes kw = len := (bytes_of_lower hlower).trans hlen
  have hlong : len < bytes (kw ++ c :: r) := by
    have hpos := c.utf8Size_pos
    rw [bytes_append, bytes_cons]
    omega
  have hany : (words.any fun w => w.toList = kw.map Char.toLower) = true :=
    List.any_eq_true.mpr ⟨w, hw, decide_eq_true hkw⟩
  unfold leading
  rw [if_pos (show len < ((kw ++ c :: r).map Char.utf8Size).sum from hlong), ← hbytes,
    split_at_append]
  simp only [Option.map_some, hany, hc, Bool.and_self, if_true]

theorem of_leading (h : leading words len cs = some (some rest)) : Opens words cs rest := by
  unfold leading at h
  split at h
  next hlong =>
    rcases Option.map_eq_some_iff.mp h with ⟨⟨a, b⟩, hsplit, heq⟩
    rcases of_split_at hsplit with ⟨rfl, -⟩
    cases b with
    | nil => cases heq
    | cons c r =>
        dsimp only at heq
        split at heq
        next hcond =>
          rcases Bool.and_eq_true_iff.mp hcond with ⟨hany, hc⟩
          rcases List.any_eq_true.mp hany with ⟨w, hw, hkw⟩
          exact ⟨a, c, r, rfl, ⟨w, hw, of_decide_eq_true hkw⟩, hc, (Option.some.inj heq).symm⟩
        next => cases heq
  next => cases h

theorem leading_eq_none_iff : leading words len cs = none ↔ ¬ Boundary len cs := by
  refine ⟨leading_none, fun h => ?_⟩
  unfold leading
  split
  next hlong =>
    cases hsplit : split_at len cs with
    | none => rfl
    | some p => exact absurd (fun _ => ⟨p.1, p.2, of_split_at hsplit⟩) h
  next hshort => exact absurd (fun hlong => absurd hlong hshort) h

end Words

section Splitting

variable {query : String} {cs rest : List Char}

/-- What the query is under a prefix that asks for its plan. -/
def Planned (query : String) (rest : List Char) : Prop :=
  ∃ after, Opens ["explain", "profile"] (query.toList.dropWhile is_whitespace) after ∧
    rest = after.dropWhile is_whitespace

def OfFabric (rest : List Char) : Prop := ∃ after, Opens ["fabric"] rest after

/-- The split answers, with what is under a prefix unless that is a statement of its own. -/
def Splits (query : String) : Prop :=
  ∃ out, split_plan_prefix query = some out ∧
    (∀ rest, Planned query rest → ¬ OfFabric rest → out = (String.ofList rest, true)) ∧
    (∀ rest, Planned query rest → OfFabric rest → out = (query, false)) ∧
    ((¬ ∃ rest, Planned query rest) → out = (query, false))

theorem sized_plan : Sized ["explain", "profile"] 7 := by
  intro w hw
  rcases List.mem_cons.mp hw with rfl | hw
  · exact ⟨rfl, rfl⟩
  · rw [List.mem_singleton.mp hw]
    exact ⟨rfl, rfl⟩

theorem sized_fabric : Sized ["fabric"] 6 := by
  intro w hw
  rw [List.mem_singleton.mp hw]
  exact ⟨rfl, rfl⟩

theorem planned_unique {rest' : List Char} (h : Planned query rest) (h' : Planned query rest') :
    rest = rest' := by
  rcases h with ⟨after, hopens, rfl⟩
  rcases h' with ⟨after', hopens', rfl⟩
  have heq := (leading_some sized_plan hopens).symm.trans (leading_some sized_plan hopens')
  rw [Option.some.inj (Option.some.inj heq)]

theorem split_planned {after : List Char}
    (h : leading ["explain", "profile"] 7 (query.toList.dropWhile is_whitespace) =
      some (some after)) :
    split_plan_prefix query =
      (leading ["fabric"] 6 (after.dropWhile is_whitespace)).map fun found =>
        if found.isSome then (query, false)
        else (String.ofList (after.dropWhile is_whitespace), true) := by
  rw [ split_plan_prefix, h]
  cases hfabric : leading ["fabric"] 6 (after.dropWhile is_whitespace) with
  | none =>
      change (leading ["fabric"] 6 (after.dropWhile is_whitespace)).bind _ = none
      rw [hfabric]
      rfl
  | some found =>
      change (leading ["fabric"] 6 (after.dropWhile is_whitespace)).bind _ = _
      rw [hfabric]
      cases found <;> rfl

/-- The split panics exactly where one of its two slices ends inside a character; otherwise it
answers as it should. -/
theorem splits_iff : Splits query ↔
    Boundary 7 (query.toList.dropWhile is_whitespace) ∧
      ∀ rest, Planned query rest → Boundary 6 rest := by
  cases hplan : leading ["explain", "profile"] 7 (query.toList.dropWhile is_whitespace) with
  | none =>
      refine iff_of_false ?_ fun h => leading_none hplan h.1
      rintro ⟨out, hout, -⟩
      rw [ split_plan_prefix, hplan] at hout
      cases hout
  | some found =>
      have hboundary : Boundary 7 (query.toList.dropWhile is_whitespace) := by
        by_contra hnot
        rw [leading_eq_none_iff.mpr hnot] at hplan
        cases hplan
      cases found with
      | none =>
          have hnone : ¬ ∃ rest, Planned query rest := by
            rintro ⟨rest, after, hopens, -⟩
            rw [leading_some sized_plan hopens] at hplan
            cases hplan
          refine iff_of_true ⟨(query, false), ?_, ?_, ?_, fun _ => rfl⟩ ⟨hboundary, ?_⟩
          · rw [ split_plan_prefix, hplan]
            rfl
          · exact fun rest hrest _ => absurd ⟨rest, hrest⟩ hnone
          · exact fun rest hrest _ => absurd ⟨rest, hrest⟩ hnone
          · exact fun rest hrest => absurd ⟨rest, hrest⟩ hnone
      | some after =>
          have hplanned : Planned query (after.dropWhile is_whitespace) :=
            ⟨after, of_leading hplan, rfl⟩
          have honly : (∀ rest, Planned query rest → Boundary 6 rest) ↔
              Boundary 6 (after.dropWhile is_whitespace) := by
            refine ⟨fun h => h _ hplanned, fun h rest hrest => ?_⟩
            rw [planned_unique hrest hplanned]
            exact h
          rw [honly, and_iff_right hboundary]
          cases hfabric : leading ["fabric"] 6 (after.dropWhile is_whitespace) with
          | none =>
              refine iff_of_false ?_ (leading_none hfabric)
              rintro ⟨out, hout, -⟩
              rw [split_planned hplan, hfabric] at hout
              cases hout
          | some found =>
              have hsix : Boundary 6 (after.dropWhile is_whitespace) := by
                by_contra hnot
                rw [leading_eq_none_iff.mpr hnot] at hfabric
                cases hfabric
              refine iff_of_true ?_ hsix
              refine ⟨_, by rw [split_planned hplan, hfabric]; rfl, ?_, ?_, ?_⟩
              · intro rest hrest hof
                rw [planned_unique hrest hplanned] at hof ⊢
                cases found with
                | none => rfl
                | some from_ => exact absurd ⟨from_, of_leading hfabric⟩ hof
              · intro rest hrest hof
                rw [planned_unique hrest hplanned] at hof
                rcases hof with ⟨from_, hfrom⟩
                rw [leading_some sized_fabric hfrom] at hfabric
                rw [← Option.some.inj hfabric]
                rfl
              · exact fun hnone => absurd ⟨_, hplanned⟩ hnone

/-- The first seven bytes of `returné` end inside its last letter. -/
theorem not_splits_accent : ¬ Splits "return\u00e9" := by
  rintro ⟨out, hout, -⟩
  have hnone : split_plan_prefix "return\u00e9" = none := by
    decide
  rw [hnone] at hout
  cases hout

end Splitting

end OntologicalDb.PlanPrefix
