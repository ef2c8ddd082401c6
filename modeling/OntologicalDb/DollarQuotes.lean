import Mathlib

/-!
Dollar quoting: how PostgreSQL reads a constant between two dollar tags, and how the tag of a text
is chosen.
-/

namespace OntologicalDb.DollarQuotes

section Reading

/-- `dolq_cont`; bytes from 128 on belong to characters outside ASCII. -/
def isDolqCont (c : Char) : Bool := c.isAlphanum || c = '_' || 128 ≤ c.toNat

/-- `dolq_start` -/
def isDolqStart (c : Char) : Bool := c.isAlpha || c = '_' || 128 ≤ c.toNat

/-- `dolqdelim` from behind its first dollar: the tag and the text behind the delimiter. -/
def delimiter (r : List Char) : Option (List Char × List Char) :=
  if (r.takeWhile isDolqCont).head?.all isDolqStart ∧ (r.dropWhile isDolqCont).head? = some '$' then
    some (r.takeWhile isDolqCont, (r.dropWhile isDolqCont).tail)
  else none

/-- The constant up to the delimiter with its tag. Another delimiter is part of it up to its last
dollar, which may start the next one. -/
def dollarBody (tag : List Char) : List Char → Option (List Char × List Char)
  | [] => none
  | c :: r =>
      if c = '$' ∧ (delimiter r).map Prod.fst = some tag then
        (delimiter r).map fun v => ([], v.2)
      else (dollarBody tag r).map fun v => (c :: v.1, v.2)

/-- A dollar-quoted constant in front of a text: its value and what is behind it. -/
def dollarQuoted : List Char → Option (List Char × List Char)
  | [] => none
  | c :: r => if c = '$' then (delimiter r).bind fun v => dollarBody v.1 v.2 else none

end Reading

section Tags

variable {tag r r' s rest : List Char}

structure IsTag (tag : List Char) : Prop where
  cont : ∀ c ∈ tag, isDolqCont c = true
  start : tag.head?.all isDolqStart = true

theorem IsTag.dollar_not_mem (h : IsTag tag) : '$' ∉ tag := fun hmem =>
  absurd (h.cont _ hmem) (by decide)

theorem delimiter_of (h : IsTag tag) : delimiter (tag ++ '$' :: r) = some (tag, r) := by
  have htake : (tag ++ '$' :: r).takeWhile isDolqCont = tag := by
    rw [List.takeWhile_append_of_pos h.cont, List.takeWhile_cons_of_neg (by decide),
      List.append_nil]
  have hdrop : (tag ++ '$' :: r).dropWhile isDolqCont = '$' :: r := by
    rw [List.dropWhile_append_of_pos h.cont, List.dropWhile_cons_of_neg (by decide)]
  rw [delimiter, htake, hdrop, if_pos ⟨h.start, rfl⟩]
  rfl

theorem of_delimiter {v : List Char × List Char} (h : delimiter r = some v) :
    r = v.1 ++ '$' :: v.2 := by
  unfold delimiter at h
  split at h
  next hcond =>
    rw [← Option.some.inj h]
    have htail : r.dropWhile isDolqCont = '$' :: (r.dropWhile isDolqCont).tail := by
      cases hdrop : r.dropWhile isDolqCont with
      | nil =>
          rw [hdrop] at hcond
          cases hcond.2
      | cons c r' =>
          rw [hdrop] at hcond
          rw [Option.some.inj hcond.2]
          rfl
    dsimp only
    rw [← htail, List.takeWhile_append_dropWhile]
  next => cases h

theorem dollarBody_stop (h : IsTag tag) :
    dollarBody tag ('$' :: (tag ++ '$' :: r)) = some ([], r) := by
  rw [dollarBody, delimiter_of h, if_pos ⟨rfl, rfl⟩]
  rfl

theorem dollarBody_go {c : Char} (h : ¬ ∃ r', c :: r = '$' :: (tag ++ '$' :: r')) :
    dollarBody tag (c :: r) = (dollarBody tag r).map fun v => (c :: v.1, v.2) := by
  rw [dollarBody, if_neg]
  rintro ⟨rfl, htag⟩
  rcases Option.map_eq_some_iff.mp htag with ⟨v, hv, rfl⟩
  exact h ⟨v.2, congrArg _ (of_delimiter hv)⟩

/-- A delimiter between a text and the closing one lies in the text or is its end. -/
theorem infix_or_suffix (h : IsTag tag) {a : List Char}
    (heq : a ++ '$' :: (tag ++ '$' :: rest) = '$' :: (tag ++ '$' :: r')) (hne : a ≠ []) :
    '$' :: (tag ++ ['$']) <+: a ∨ a = '$' :: tag := by
  cases a with
  | nil => exact absurd rfl hne
  | cons c a =>
      rcases List.cons.inj heq with ⟨rfl, hrest⟩
      rcases List.append_eq_append_iff.mp hrest with ⟨b, hb, htail⟩ | ⟨b, hb, htail⟩
      · cases b with
        | nil =>
            rw [List.append_nil] at hb
            exact .inr (by rw [hb])
        | cons d b =>
            rw [List.cons_append] at htail
            rw [← (List.cons.inj htail).1] at hb
            exact absurd (hb ▸ List.mem_append_right _ List.mem_cons_self) h.dollar_not_mem
      · cases b with
        | nil =>
            rw [List.append_nil] at hb
            exact .inr (by rw [hb])
        | cons d b =>
            rw [List.cons_append] at htail
            rw [← (List.cons.inj htail).1] at hb
            refine .inl ⟨b, ?_⟩
            rw [hb]
            simp

end Tags

section Bodies

variable {tag r s a rest : List Char} {v : List Char × List Char}

/-- A text without the delimiter that does not end with all of it but its last dollar is read as
it is. -/
theorem dollarBody_append (h : IsTag tag) (hin : ¬ '$' :: (tag ++ ['$']) <:+: s)
    (hend : ¬ '$' :: tag <:+ s) :
    dollarBody tag (s ++ '$' :: (tag ++ '$' :: rest)) = some (s, rest) := by
  induction s with
  | nil => exact dollarBody_stop h
  | cons c s ih =>
      have hgo : ¬ ∃ r', c :: (s ++ '$' :: (tag ++ '$' :: rest)) = '$' :: (tag ++ '$' :: r') := by
        rintro ⟨r', heq⟩
        rcases @infix_or_suffix tag r' rest h (c :: s) heq (List.cons_ne_nil c s) with hpre | hall
        · exact hin hpre.isInfix
        · exact hend (hall ▸ List.suffix_refl _)
      rw [List.cons_append, dollarBody_go hgo,
        ih (fun hs => hin (hs.trans (List.suffix_cons c s).isInfix))
          (fun hs => hend (hs.trans (List.suffix_cons c s)))]
      rfl

/-- What is read is no longer than the text in front of a delimiter. -/
theorem length_dollarBody_le (h : IsTag tag)
    (hbody : dollarBody tag (a ++ '$' :: (tag ++ '$' :: r)) = some v) :
    v.1.length ≤ a.length := by
  induction a generalizing v with
  | nil =>
      rw [List.nil_append, dollarBody_stop h] at hbody
      rw [← Option.some.inj hbody]
  | cons c a ih =>
      rcases Classical.em (∃ r', c :: (a ++ '$' :: (tag ++ '$' :: r)) =
        '$' :: (tag ++ '$' :: r')) with ⟨r', heq⟩ | hgo
      · rw [List.cons_append, heq, dollarBody_stop h] at hbody
        rw [← Option.some.inj hbody]
        exact Nat.zero_le _
      · rw [List.cons_append, dollarBody_go hgo] at hbody
        rcases Option.map_eq_some_iff.mp hbody with ⟨u, hu, rfl⟩
        exact Nat.succ_le_succ (ih hu)

theorem dollarQuoted_tag (h : IsTag tag) :
    dollarQuoted ('$' :: (tag ++ '$' :: r)) = dollarBody tag r := by
  rw [dollarQuoted, if_pos rfl, delimiter_of h]
  rfl

end Bodies

section Writing

/-- The two programs that quote texts. -/
inductive Program
  | engine
  | gateway

variable (p : Program) (s : List Char)

def Program.base : Program → String
  | .engine => "og"
  | .gateway => "ogq"

/-- The `n`-th tag, without its dollars and with them. -/
def word (n : Nat) : List Char := p.base.toList ++ if n = 0 then [] else (toString n).toList

def delimiterText (n : Nat) : List Char := '$' :: (word p n ++ ['$'])

variable {p} in
theorem word_injective : Function.Injective (word p) := by
  intro m n heq
  have htail := List.append_cancel_left heq
  have hne (k : Nat) : (toString k).toList ≠ [] := by
    change k.repr.toList ≠ []
    rw [Nat.toList_repr]
    exact Nat.toDigits_ne_nil
  split at htail
  next hm =>
    split at htail
    next hn => rw [hm, hn]
    next => exact absurd htail.symm (hne n)
  next =>
    split at htail
    next => exact absurd htail (hne m)
    next => exact Nat.repr_injective (String.toList_inj.mp htail)

variable {p} in
theorem isTag_word (n : Nat) : IsTag (word p n) := by
  refine ⟨fun c hc => ?_, ?_⟩
  · rcases List.mem_append.mp hc with hc | hc
    · have hall : p.base.toList.all isDolqCont = true := by cases p <;> rfl
      exact List.all_eq_true.mp hall c hc
    · split at hc
      next => cases hc
      next =>
        have hdigit : c.isDigit = true := by
          change c ∈ n.repr.toList at hc
          rw [Nat.toList_repr] at hc
          exact Nat.isDigit_of_mem_toDigits (by decide) (by decide) hc
        rw [isDolqCont, Char.isAlphanum, hdigit, Bool.or_true]
        rfl
  · cases p <;> rfl

/-- Not every tag is in a text. -/
theorem exists_absent : ∃ n, ¬ delimiterText p n <:+: s := by
  by_contra hall
  have hin (n : Nat) : delimiterText p n ∈ {l | l ∈ s.sublists} := by
    by_contra hnot
    refine hall ⟨n, fun hinfix => hnot ?_⟩
    exact List.mem_sublists.mpr hinfix.sublist
  have hinj : Function.Injective (delimiterText p) := by
    intro m n heq
    exact word_injective (List.append_cancel_right (List.cons.inj heq).2)
  exact Set.infinite_of_injective_forall_mem hinj hin (List.finite_toSet _)

/-- The tags are tried in turn. -/
def tagNumber : Nat := Nat.find (exists_absent p s)

/-- `dq` -/
def dq (s : String) : String :=
  let tag := delimiterText p (tagNumber p s.toList)
  String.ofList (tag ++ (s.toList ++ tag))

end Writing

section Faithful

variable {p : Program} {s : String}

/-- In front of any text the server reads the quoted text as one constant of that value. -/
def Faithful (p : Program) (s : String) : Prop :=
  ∀ rest, dollarQuoted ((dq p s).toList ++ rest) = some (s.toList, rest)

theorem toList_dq (rest : List Char) : (dq p s).toList ++ rest =
    '$' :: (word p (tagNumber p s.toList) ++ '$' :: (s.toList ++
      '$' :: (word p (tagNumber p s.toList) ++ '$' :: rest))) := by
  rw [dq, String.toList_ofList]
  simp [delimiterText]

theorem tagNumber_absent : ¬ delimiterText p (tagNumber p s.toList) <:+: s.toList :=
  Nat.find_spec (exists_absent p s.toList)

theorem faithful_iff_suffix :
    Faithful p s ↔ ¬ '$' :: word p (tagNumber p s.toList) <:+ s.toList := by
  constructor
  · rintro h ⟨a, ha⟩
    have hread := h []
    have htag : IsTag (word p (tagNumber p s.toList)) := isTag_word _
    rw [toList_dq, dollarQuoted_tag htag] at hread
    generalize word p (tagNumber p s.toList) = tag at ha hread htag
    rw [← ha, List.append_assoc, List.cons_append] at hread
    have hle := length_dollarBody_le htag hread
    rw [List.length_append, List.length_cons] at hle
    omega
  · intro h rest
    rw [toList_dq, dollarQuoted_tag (isTag_word _)]
    exact dollarBody_append (isTag_word _) tagNumber_absent h

/-- A quoted text is read as it was unless it ends with the chosen tag without the last dollar. -/
theorem faithful_iff : Faithful p s ↔
    ∀ n, (∀ m < n, delimiterText p m <:+: s.toList) → ¬ delimiterText p n <:+: s.toList →
      ¬ '$' :: word p n <:+ s.toList := by
  rw [faithful_iff_suffix]
  constructor
  · intro h n hbefore habsent
    have hn : tagNumber p s.toList = n := by
      refine (Nat.find_eq_iff _).mpr ⟨habsent, fun m hm => not_not.mpr (hbefore m hm)⟩
    rw [← hn]
    exact h
  · intro h
    refine h _ (fun m hm => ?_) tagNumber_absent
    by_contra hnot
    exact Nat.find_min (exists_absent p s.toList) hm hnot

/-- `a$og` is read as `a`, and `og$` is left over. -/
theorem not_faithful_tail : ¬ Faithful .engine "a$og" := by
  rw [faithful_iff_suffix, not_not]
  have hzero : tagNumber .engine "a$og".toList = 0 := by
    refine (Nat.find_eq_zero _).mpr ?_
    decide
  rw [hzero]
  decide

end Faithful

end OntologicalDb.DollarQuotes
