import Mathlib
import OntologicalDb.ExceptRules
import OntologicalDb.GuardedRuns

/-!
Transactions over rows under READ COMMITTED. A row that has been written stays
locked until its transaction ends; the others see what was committed last.
-/

namespace OntologicalDb.RowTransactions

open OntologicalDb.ExceptRules
open OntologicalDb.GuardedRuns

/-- A commit of one row: when its transaction started, when it committed, what it left. -/
structure Commit (D T : Type) where
  start : T
  time : T
  content : D

structure Database (X K D T : Type) where
  clock : T
  /-- The next value of a sequence that every write draws from. -/
  seq : Nat
  start : X → Option T
  holder : K → Option X
  working : K → D
  committed : K → D
  log : K → List (Commit D T)

inductive Event (X K W T : Type)
  | tick (t : T)
  | draw (n : Nat)
  | begin_ (x : X)
  | write (x : X) (k : K) (w : W)
  | commit (x : X)
  | rollback (x : X)

variable {X K D W T : Type} [DecidableEq X] [DecidableEq K]

namespace Database

def init (now : T) (content : K → D) : Database X K D T :=
  ⟨now, 0, fun _ => none, fun _ => none, content, content, fun _ => []⟩

variable (db : Database X K D T)

/-- The row as a statement of a transaction finds it. -/
def visible (x : X) (k : K) : D := if db.holder k = some x then db.working k else db.committed k

def assign (x : X) (k : K) (d : D) : Database X K D T :=
  { db with
    seq := db.seq + 1
    holder := Function.update db.holder k (some x)
    working := Function.update db.working k d }

def release (x : X) : Database X K D T :=
  { db with
    start := Function.update db.start x none
    holder := fun k => if db.holder k = some x then none else db.holder k }

def install (x : X) (start : T) : Database X K D T :=
  { db.release x with
    committed := fun k => db.visible x k
    log := fun k => if db.holder k = some x then db.log k ++ [⟨start, db.clock, db.working k⟩]
      else db.log k }

end Database

section Steps

variable [LinearOrder T] (apply : T → Nat → W → D → Except String D)

def startOf (db : Database X K D T) (x : X) : Except String T :=
  match db.start x with
  | some t => .ok t
  | none => .error "there is no transaction in progress"

/-- A write of a row that another transaction holds does not happen until that one ends. -/
def step (db : Database X K D T) : Event X K W T → Except String (Database X K D T)
  | .tick t => do
      require (db.clock ≤ t) "the clock does not go back"
      return { db with clock := t }
  | .draw n => .ok { db with seq := db.seq + n }
  | .begin_ x => do
      require (db.start x = none) "there is already a transaction in progress"
      return { db with start := Function.update db.start x (some db.clock) }
  | .write x k w => do
      let t ← startOf db x
      require (db.holder k = none ∨ db.holder k = some x) "waits for the lock"
      let d ← apply t db.seq w (db.visible x k)
      return db.assign x k d
  | .commit x => do
      let t ← startOf db x
      return db.install x t
  | .rollback x => do
      let _ ← startOf db x
      return db.release x

/-- What a step does. -/
inductive Steps (db : Database X K D T) : Event X K W T → Database X K D T → Prop
  | tick (t : T) (hle : db.clock ≤ t) : Steps db (.tick t) { db with clock := t }
  | draw (n : Nat) : Steps db (.draw n) { db with seq := db.seq + n }
  | begin_ (x : X) (hnone : db.start x = none) :
      Steps db (.begin_ x) { db with start := Function.update db.start x (some db.clock) }
  | write (x : X) (k : K) (w : W) (t : T) (d : D) (hstart : db.start x = some t)
      (hlock : db.holder k = none ∨ db.holder k = some x)
      (happly : apply t db.seq w (db.visible x k) = .ok d) :
      Steps db (.write x k w) (db.assign x k d)
  | commit (x : X) (t : T) (hstart : db.start x = some t) :
      Steps db (.commit x) (db.install x t)
  | rollback (x : X) (t : T) (hstart : db.start x = some t) :
      Steps db (.rollback x) (db.release x)

variable {apply} {db db' : Database X K D T} {e : Event X K W T}

omit [DecidableEq X] [DecidableEq K] [LinearOrder T] in
theorem startOf_eq_ok {x : X} {t : T} : startOf db x = .ok t ↔ db.start x = some t := by
  unfold startOf
  cases db.start x <;> simp

theorem step_cases (h : step apply db e = .ok db') : Steps apply db e db' := by
  cases e with
  | tick t =>
    obtain ⟨_, hle, h⟩ := bind_eq_ok.mp h
    obtain rfl := pure_eq_ok.mp h
    exact .tick t (require_eq_ok.mp hle)
  | draw n =>
    obtain rfl := Except.ok.inj h
    exact .draw n
  | begin_ x =>
    obtain ⟨_, hnone, h⟩ := bind_eq_ok.mp h
    obtain rfl := pure_eq_ok.mp h
    exact .begin_ x (require_eq_ok.mp hnone)
  | write x k w =>
    obtain ⟨t, ht, h⟩ := bind_eq_ok.mp h
    obtain ⟨_, hlock, h⟩ := bind_eq_ok.mp h
    obtain ⟨d, hd, h⟩ := bind_eq_ok.mp h
    obtain rfl := pure_eq_ok.mp h
    exact .write x k w t d (startOf_eq_ok.mp ht) (require_eq_ok.mp hlock) hd
  | commit x =>
    obtain ⟨t, ht, h⟩ := bind_eq_ok.mp h
    obtain rfl := pure_eq_ok.mp h
    exact .commit x t (startOf_eq_ok.mp ht)
  | rollback x =>
    obtain ⟨t, ht, h⟩ := bind_eq_ok.mp h
    obtain rfl := pure_eq_ok.mp h
    exact .rollback x t (startOf_eq_ok.mp ht)

end Steps

section Invariants

variable [LinearOrder T]

/-- What holds of a row between transactions, given its commits, and what holds of a
row on the way through a transaction. -/
structure Relations (D T : Type) where
  Committed : Nat → List (Commit D T) → D → Prop
  Working : Nat → T → D → D → Prop

/-- The conditions under which the writes and commits of a run keep the relations. -/
structure Conditions (D W T : Type) where
  Write : T → W → D → Prop
  Install : List (Commit D T) → T → D → Prop

variable (apply : T → Nat → W → D → Except String D) (r : Relations D T) (c : Conditions D W T)

structure Kept : Prop where
  committed_mono : ∀ {n m : Nat} {log : List (Commit D T)} {d : D}, n ≤ m →
    r.Committed n log d → r.Committed m log d
  working_mono : ∀ {n m : Nat} {t : T} {d d' : D}, n ≤ m → r.Working n t d d' → r.Working m t d d'
  first : ∀ {n : Nat} {log : List (Commit D T)} {t : T} {w : W} {d d' : D},
    r.Committed n log d → c.Write t w d → apply t n w d = .ok d' → r.Working (n + 1) t d d'
  next : ∀ {n : Nat} {t : T} {w : W} {d d' d'' : D},
    r.Working n t d d' → c.Write t w d' → apply t n w d' = .ok d'' → r.Working (n + 1) t d d''
  install : ∀ {n : Nat} {log : List (Commit D T)} {t time : T} {d d' : D},
    (∀ e ∈ log, e.time ≤ time) → t ≤ time → r.Committed n log d → r.Working n t d d' →
      c.Install log t d' → r.Committed n (log ++ [⟨t, time, d'⟩]) d'

/-- Every event of the run meets the conditions. -/
def Meets (_ : List (Event X K W T)) (db : Database X K D T) : Event X K W T → Prop
  | .write x k w => ∀ t, db.start x = some t → c.Write t w (db.visible x k)
  | .commit x => ∀ t, db.start x = some t → ∀ k, db.holder k = some x →
      c.Install (db.log k) t (db.working k)
  | _ => True

/-- What holds of a database in every state of such a run. -/
structure Sound (db : Database X K D T) : Prop where
  started : ∀ x t, db.start x = some t → t ≤ db.clock
  held : ∀ k x, db.holder k = some x → ∃ t, db.start x = some t
  logged : ∀ k, ∀ e ∈ db.log k, e.time ≤ db.clock
  committed : ∀ k, r.Committed db.seq (db.log k) (db.committed k)
  working : ∀ k x t, db.holder k = some x → db.start x = some t →
    r.Working db.seq t (db.committed k) (db.working k)

variable {apply r c} {db db' : Database X K D T} {e : Event X K W T}

omit [DecidableEq X] [DecidableEq K] in
theorem sound_init {now : T} {content : K → D} (h : ∀ k, r.Committed 0 [] (content k)) :
    Sound (X := X) r (Database.init now content) where
  started := by simp [Database.init]
  held := by simp [Database.init]
  logged := by simp [Database.init]
  committed := h
  working := by simp [Database.init]

omit [DecidableEq K] [LinearOrder T] in
theorem release_start {x y : X} {t : T} (h : (db.release x).start y = some t) :
    y ≠ x ∧ db.start y = some t := by
  by_cases hyx : y = x
  · subst hyx
    simp [Database.release] at h
  · exact ⟨hyx, by simpa [Database.release, Function.update_of_ne hyx] using h⟩

omit [DecidableEq K] [LinearOrder T] in
theorem release_holder {x y : X} {k : K} (h : (db.release x).holder k = some y) :
    db.holder k = some y ∧ y ≠ x := by
  simp only [Database.release] at h
  split at h
  · cases h
  · next hne => exact ⟨h, fun heq => hne (heq ▸ h)⟩

theorem held_release (h : ∀ k x, db.holder k = some x → ∃ t, db.start x = some t) (x : X) :
    ∀ k y, (db.release x).holder k = some y → ∃ t, (db.release x).start y = some t := by
  intro k y hk
  obtain ⟨hhold, hne⟩ := release_holder hk
  obtain ⟨t, ht⟩ := h k y hhold
  exact ⟨t, by simpa [Database.release, Function.update_of_ne hne] using ht⟩

theorem Sound.rollback (h : Sound r db) (x : X) : Sound r (db.release x) where
  started y t hy := h.started y t (release_start hy).2
  held := held_release h.held x
  logged := h.logged
  committed := h.committed
  working k y t hk hy := h.working k y t (release_holder hk).1 (release_start hy).2

theorem Sound.write (h : Sound r db) (hkept : Kept apply r c) {x : X} {k : K} {w : W} {t : T} {d : D}
    (hstart : db.start x = some t) (hlock : db.holder k = none ∨ db.holder k = some x)
    (hcond : c.Write t w (db.visible x k)) (happly : apply t db.seq w (db.visible x k) = .ok d) :
    Sound r (db.assign x k d) where
  started := h.started
  held := by
    intro k' y hk
    by_cases hkk : k' = k
    · subst hkk
      obtain rfl : x = y := by simpa [Database.assign] using hk
      exact ⟨t, hstart⟩
    · exact h.held k' y (by simpa [Database.assign, Function.update_of_ne hkk] using hk)
  logged := h.logged
  committed := fun k' => hkept.committed_mono (Nat.le_succ _) (h.committed k')
  working := by
    intro k' y t' hk hy
    by_cases hkk : k' = k
    · subst hkk
      obtain rfl : x = y := by simpa [Database.assign] using hk
      obtain rfl : t = t' := Option.some.inj (hstart.symm.trans hy)
      simp only [Database.assign, Function.update_self]
      rcases hlock with hfree | hown
      · have hvis : db.visible x k' = db.committed k' := by simp [Database.visible, hfree]
        rw [hvis] at hcond happly
        exact hkept.first (h.committed k') hcond happly
      · have hvis : db.visible x k' = db.working k' := by simp [Database.visible, hown]
        rw [hvis] at hcond happly
        exact hkept.next (h.working k' x t hown hstart) hcond happly
    · have hhold : db.holder k' = some y := by
        simpa [Database.assign, Function.update_of_ne hkk] using hk
      simp only [Database.assign, Function.update_of_ne hkk]
      exact hkept.working_mono (Nat.le_succ _) (h.working k' y t' hhold hy)

theorem Sound.commit (h : Sound r db) (hkept : Kept apply r c) {x : X} {t : T}
    (hstart : db.start x = some t)
    (hcond : ∀ k, db.holder k = some x → c.Install (db.log k) t (db.working k)) :
    Sound r (db.install x t) where
  started y t' hy := h.started y t' (release_start hy).2
  held := held_release h.held x
  logged := by
    intro k e he
    simp only [Database.install] at he
    split at he
    · rcases List.mem_append.mp he with he | he
      · exact h.logged k e he
      · obtain rfl := List.mem_singleton.mp he
        exact le_rfl
    · exact h.logged k e he
  committed := by
    intro k
    by_cases hk : db.holder k = some x
    · simp only [Database.install, Database.release, Database.visible, if_pos hk]
      exact hkept.install (h.logged k) (h.started x t hstart) (h.committed k)
        (h.working k x t hk hstart) (hcond k hk)
    · simp only [Database.install, Database.release, Database.visible, if_neg hk]
      exact h.committed k
  working := by
    intro k y t' hk hy
    obtain ⟨hhold, hne⟩ := release_holder hk
    have hnot : db.holder k ≠ some x := fun hx => hne (Option.some.inj (hhold.symm.trans hx))
    simp only [Database.install, Database.release, Database.visible, if_neg hnot]
    exact h.working k y t' hhold (release_start hy).2

theorem Sound.step (h : Sound r db) (hkept : Kept apply r c) {es : List (Event X K W T)}
    (hcond : Meets c es db e) (hstep : step apply db e = .ok db') : Sound r db' := by
  cases step_cases hstep with
  | tick t hle =>
    exact ⟨fun x t' hx => (h.started x t' hx).trans hle, h.held,
      fun k e he => (h.logged k e he).trans hle, h.committed, h.working⟩
  | draw n =>
    exact ⟨h.started, h.held, h.logged,
      fun k => hkept.committed_mono (Nat.le_add_right _ _) (h.committed k),
      fun k x t hk hx => hkept.working_mono (Nat.le_add_right _ _) (h.working k x t hk hx)⟩
  | begin_ x hnone =>
    have hother {y : X} {t : T} {k : K} (hk : db.holder k = some y)
        (hy : Function.update db.start x (some db.clock) y = some t) : db.start y = some t := by
      by_cases hyx : y = x
      · subst hyx
        obtain ⟨t', ht'⟩ := h.held k y hk
        rw [hnone] at ht'
        cases ht'
      · rwa [Function.update_of_ne hyx] at hy
    refine ⟨fun y t hy => ?_, fun k y hk => ?_, h.logged, h.committed,
      fun k y t hk hy => h.working k y t hk (hother hk hy)⟩
    · by_cases hyx : y = x
      · subst hyx
        obtain rfl : db.clock = t := by simpa using hy
        exact le_rfl
      · exact h.started y t (by simpa [Function.update_of_ne hyx] using hy)
    · obtain ⟨t, ht⟩ := h.held k y hk
      have hyx : y ≠ x := fun heq => by
        rw [heq, hnone] at ht
        cases ht
      exact ⟨t, by simpa [Function.update_of_ne hyx] using ht⟩
  | write x k w t d hstart hlock happly =>
    exact h.write hkept hstart hlock (hcond t hstart) happly
  | commit x t hstart => exact h.commit hkept hstart (hcond t hstart)
  | rollback x t hstart => exact h.rollback x

/-- What every write and commit keeps holds of every row in every state of a run. -/
theorem Sound.run (hkept : Kept apply r c) {now : T} {content : K → D} {es : List (Event X K W T)}
    (hinit : ∀ k, r.Committed 0 [] (content k))
    (run : Run (RowTransactions.step apply) (Meets c) (Database.init now content) es db) :
    Sound r db :=
  run.invariant (I := fun _ db => Sound r db) (sound_init hinit)
    fun _ _ _ _ hsound hcond hstep => hsound.step hkept hcond hstep

end Invariants

end OntologicalDb.RowTransactions
