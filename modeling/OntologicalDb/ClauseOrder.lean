import OntologicalDb.QueryExecution

/-!
Which queries are executed as written: every clause, in its place.
-/

namespace OntologicalDb.ClauseOrder

open OntologicalDb.CypherSyntax
open OntologicalDb.ExceptRules
open OntologicalDb.QueryExecution

/-- The meaning that records what takes effect: a row carries the clauses it
went through, the store every change with its row, a result the row it shows.
Folded results show the first of them; a rename leaves a mark of its own. -/
abbrev recording : Meaning where
  Store := List (List Clause)
  Row := List Clause
  Result := List (List Clause)
  start := []
  bind c _ rows := rows.map fun row => row ++ [c]
  act c st row := (st ++ [row ++ [c]], row ++ [c])
  project p _ rows := rows.map fun row => [row ++ [.return_ p]]
  yieldRow p _ row := [row ++ [.return_ p]]
  fold _ out := out.head?.getD []
  columns _ := []
  union _ l r := l ++ r
  ddl statement st := (st ++ [[.ddl statement]], [])
  rename _ _ st := some (st ++ [[]])

/-- What one row records when clauses are executed as written. -/
def written : List Clause → List Clause → List (List Clause) × List (List Clause)
  | _, [] => ([], [])
  | row, .return_ p :: rest =>
      ((written row rest).1, (row ++ [.return_ p]) :: (written row rest).2)
  | row, c :: rest =>
      if isWriteClause c then
        ((row ++ [c]) :: (written (row ++ [c]) rest).1, (written (row ++ [c]) rest).2)
      else written (row ++ [c]) rest

def Query.branches : Query → List (List Clause)
  | .mk clauses none => [clauses]
  | .mk clauses (some (_, tail)) => clauses :: Query.branches tail

/-- The changes and the results of a query whose branches are executed as
written. -/
def writtenQuery (q : Query) : List (List Clause) × List (List Clause) :=
  ((Query.branches q).flatMap fun b => (written [] b).1,
    (Query.branches q).flatMap fun b => (written [] b).2)

/-- Execution shows the clauses as written. -/
def InPlace (q : Query) : Prop :=
  ∀ r, runQuery recording q [] = .ok r → (r.1, r.2.flatten) = writtenQuery q

/-- One clause of one branch is taken out. -/
inductive Deleted : Query → Query → Prop
  | head (pre : List Clause) (c : Clause) (post : List Clause) (u : Option (Bool × Query)) :
      Deleted (.mk (pre ++ c :: post) u) (.mk (pre ++ post) u)
  | tail (clauses : List Clause) (all : Bool) {q q' : Query} :
      Deleted q q' → Deleted (.mk clauses (some (all, q))) (.mk clauses (some (all, q')))

/-- No clause is without effect on every store. -/
def NoneIgnored (q : Query) : Prop :=
  ∀ q', Deleted q q' → ∃ (M : Meaning) (st : M.Store), runQuery M q st ≠ runQuery M q' st

def Accepted (q : Query) : Prop := ∃ r, runQuery recording q [] = .ok r

/-- A branch of a read query ends with its only `RETURN`. -/
def ReadPlaced (clauses : List Clause) : Prop :=
  ∃ (pre : List Clause) (p : Projection), clauses = pre ++ [Clause.return_ p] ∧
    ∀ c ∈ pre, returnOf c = none

def isLive (c : Clause) : Bool := isRowClause c || (returnOf c).isSome

/-- The first `RETURN` of a write query folds the results. -/
def folds (clauses : List Clause) : Bool :=
  (clauses.findSome? returnOf).any fun p => p.items.any fun i => i.expr.isAggregate

/-- A write query has reading clauses that bind a variable, then only clauses
the write loop acts on; it renames no type, and a `RETURN` that folds results is
its only one. -/
def WritePlaced (clauses : List Clause) : Prop :=
  (∃ statement, clauses = [.ddl statement]) ∨
    (readPrefix clauses = [] ∨ bindsRows (readPrefix clauses) = true) ∧
      (∀ c ∈ writeTail clauses, isLive c = true) ∧ renamePair (writeTail clauses) = none ∧
        (folds (writeTail clauses) = true → (clauses.filterMap returnOf).length ≤ 1)

def WellPlaced (q : Query) : Prop :=
  if isWrite q then ∃ b ∈ Query.branches q, WritePlaced b
  else ∀ b ∈ Query.branches q, ReadPlaced b

section Rows

variable {M : Meaning} {cs : List Clause} {row : List Clause} {st : List (List Clause)}
variable {out : List (List (List Clause))}

theorem isLive_cases {c : Clause} (h : isLive c = true) :
    isRowClause c = true ∨ ∃ p, c = .return_ p := by
  cases c with
  | return_ p => exact .inr ⟨p, rfl⟩
  | _ => exact .inl (by simpa [isLive, returnOf] using h)

theorem runRow_row {c : Clause} (hc : isRowClause c = true) {st : M.Store} {row : M.Row}
    {out : List M.Result} :
    runRow M (c :: cs) (st, row, out) =
      runRow M cs ((M.act c st row).1, (M.act c st row).2, out) := by
  cases c with
  | create _ | merge _ _ _ | set _ | remove _ | delete _ _ => rfl
  | _ => simp [isRowClause] at hc

theorem written_row {c : Clause} (hc : isRowClause c = true) :
    written row (c :: cs) =
      ((row ++ [c]) :: (written (row ++ [c]) cs).1, (written (row ++ [c]) cs).2) := by
  cases c with
  | create _ | merge _ _ _ | set _ | remove _ | delete _ _ => rfl
  | _ => simp [isRowClause] at hc

/-- The write loop passes over every clause it does not act on. -/
theorem runRow_filter {s : M.Store × M.Row × List M.Result} :
    runRow M (cs.filter isLive) s = runRow M cs s := by
  induction cs generalizing s with
  | nil => rfl
  | cons c cs ih =>
      obtain ⟨st, row, out⟩ := s
      cases c with
      | match_ _ _ _ | unwind _ _ | with_ _ _ | call _ _ _ | ddl _ => exact ih
      | return_ p => exact ih
      | create _ | merge _ _ _ | set _ | remove _ | delete _ _ => exact ih

theorem runRow_recording (hlive : ∀ c ∈ cs, isLive c = true) (row : List Clause)
    (st : List (List Clause)) (out : List (List (List Clause))) :
    (runRow recording cs (st, row, out)).1 = st ++ (written row cs).1 ∧
      (runRow recording cs (st, row, out)).2.2 = out ++ (written row cs).2.map fun x => [x] := by
  induction cs generalizing st row out with
  | nil => exact ⟨(List.append_nil st).symm, (List.append_nil out).symm⟩
  | cons c cs ih =>
      obtain ⟨hc, hcs⟩ := List.forall_mem_cons.mp hlive
      rcases isLive_cases hc with hrow | ⟨p, rfl⟩
      · obtain ⟨hstore, hout⟩ := ih hcs (row ++ [c]) (st ++ [row ++ [c]]) out
        rw [runRow_row hrow, written_row hrow]
        exact ⟨hstore.trans (List.append_assoc _ _ _), hout⟩
      · obtain ⟨hstore, hout⟩ := ih hcs row st (out ++ [[row ++ [Clause.return_ p]]])
        exact ⟨hstore, hout.trans (by simp [written])⟩

theorem written_append {pre : List Clause} (h : ∀ c ∈ pre, isPrefixClause c = true) :
    written row (pre ++ cs) = written (row ++ pre) cs := by
  induction pre generalizing row with
  | nil => simp
  | cons c pre ih =>
      obtain ⟨hc, hpre⟩ := List.forall_mem_cons.mp h
      cases c with
      | match_ _ _ _ | unwind _ _ | with_ _ _ =>
          show written (row ++ [_]) (pre ++ cs) = _
          rw [ih hpre, List.append_assoc, List.singleton_append]
      | _ => simp [isPrefixClause] at hc

/-- Every change shows a clause. -/
theorem ne_nil_of_mem_written {x : List Clause} (h : x ∈ (written row cs).1) : x ≠ [] := by
  induction cs generalizing row with
  | nil => simp [written] at h
  | cons c cs ih =>
      cases c with
      | match_ _ _ _ | unwind _ _ | with_ _ _ | call _ _ _ | return_ _ => exact ih h
      | create _ | merge _ _ _ | set _ | remove _ | delete _ _ | ddl _ =>
          rcases List.mem_cons.mp h with rfl | h
          · simp
          · exact ih h

theorem length_written_fst :
    (written row cs).1.length = (cs.filter isWriteClause).length := by
  induction cs generalizing row with
  | nil => rfl
  | cons c cs ih =>
      cases c with
      | match_ _ _ _ | unwind _ _ | with_ _ _ | call _ _ _ | return_ _ => exact ih
      | create _ | merge _ _ _ | set _ | remove _ | delete _ _ | ddl _ =>
          exact congrArg Nat.succ ih

theorem length_written_snd (row : List Clause) :
    (written row cs).2.length = (cs.filterMap returnOf).length := by
  induction cs generalizing row with
  | nil => rfl
  | cons c cs ih =>
      cases c with
      | return_ _ => exact congrArg Nat.succ (ih _)
      | match_ _ _ _ | unwind _ _ | with_ _ _ | call _ _ _ => exact ih _
      | create _ | merge _ _ _ | set _ | remove _ | delete _ _ | ddl _ => exact ih _

/-- How many clauses a record shows: those of its last change, and its
results. -/
def shown (r : List (List Clause) × List (List Clause)) : Nat :=
  (r.1.getLast?.map List.length).getD 0 + r.2.length

/-- With a change among them, the record of live clauses shows all of them. -/
theorem shown_written (hlive : ∀ c ∈ cs, isLive c = true) (row : List Clause) :
    (cs.any isRowClause = true → (written row cs).1 ≠ [] ∧
      shown (written row cs) = row.length + cs.length) ∧
      (cs.any isRowClause = false → (written row cs).1 = [] ∧
        (written row cs).2.length = cs.length) := by
  induction cs generalizing row with
  | nil => simp [written]
  | cons c cs ih =>
      obtain ⟨hc, hcs⟩ := List.forall_mem_cons.mp hlive
      rcases isLive_cases hc with hrow | ⟨p, rfl⟩
      · obtain ⟨hsome, hnone⟩ := ih hcs (row ++ [c])
        rw [written_row hrow]
        refine ⟨fun _ => ⟨by simp, ?_⟩, fun h => by simp [hrow] at h⟩
        cases hany : cs.any isRowClause with
        | true =>
            obtain ⟨hne, hshown⟩ := hsome hany
            simp only [shown, List.getLast?_cons_of_ne_nil hne, List.length_append,
              List.length_cons, List.length_nil] at hshown ⊢
            omega
        | false =>
            obtain ⟨hacts, hout⟩ := hnone hany
            simp [shown, hacts, hout]
            omega
      · obtain ⟨hsome, hnone⟩ := ih hcs row
        refine ⟨fun h => ⟨(hsome h).1, ?_⟩, fun h => ⟨(hnone h).1, congrArg Nat.succ (hnone h).2⟩⟩
        have := (hsome h).2
        simp only [shown, written, List.length_cons] at this ⊢
        omega

end Rows

section Writing

variable {clauses : List Clause} {r : List (List Clause) × List (List (List Clause))}

/-- The prefix a write query's rows went through. -/
def boundPrefix (clauses : List Clause) : List Clause :=
  if bindsRows (readPrefix clauses) then readPrefix clauses else []

theorem bindPrefix_recording {pre : List Clause} {st : List (List Clause)} :
    bindPrefix recording pre st = [if bindsRows pre then pre else []] := by
  have hfold (rows : List (List Clause)) :
      pre.foldl (fun rows c => recording.bind c st rows) rows =
        rows.map fun row => row ++ pre := by
    induction pre generalizing rows with
    | nil => simp
    | cons c pre ih =>
        refine (ih (recording.bind c st rows)).trans ?_
        simp [Function.comp_def]
  unfold bindPrefix
  split
  · exact hfold [[]]
  · rfl

/-- Folded results show the first of them. -/
def folded (tail : List Clause) (w : List (List Clause) × List (List Clause)) :
    List (List Clause) × List (List Clause) :=
  if folds tail then (w.1, w.2.take 1) else w

theorem flatten_singletons {α : Type} (out : List α) : (out.map fun x => [x]).flatten = out := by
  induction out with
  | nil => rfl
  | cons x out ih => exact congrArg (x :: ·) ih

theorem finish_recording {tail : List Clause} {out : List (List Clause)}
    (hout : out.length = (tail.filterMap returnOf).length) :
    (finish recording tail (out.map fun x => [x])).flatten =
      if folds tail then out.take 1 else out := by
  unfold finish folds
  cases hfirst : tail.findSome? returnOf with
  | none => exact flatten_singletons out
  | some p =>
      simp only [Option.any_some]
      split
      · cases out with
        | nil =>
            obtain ⟨c, hc, hp⟩ := List.exists_of_findSome?_eq_some hfirst
            have hmem : p ∈ tail.filterMap returnOf := List.mem_filterMap.mpr ⟨c, hc, hp⟩
            rw [List.length_eq_zero_iff.mp hout.symm] at hmem
            exact absurd hmem (List.not_mem_nil)
        | cons x out => simp
      · exact flatten_singletons out

theorem filterMap_filter_isLive {tail : List Clause} :
    (tail.filter isLive).filterMap returnOf = tail.filterMap returnOf := by
  induction tail with
  | nil => rfl
  | cons c tail ih =>
      cases c with
      | return_ p => exact congrArg (p :: ·) ih
      | match_ _ _ _ | unwind _ _ | with_ _ _ | call _ _ _ | ddl _ => exact ih
      | create _ | merge _ _ _ | set _ | remove _ | delete _ _ => exact ih

theorem runRows_recording (tail row : List Clause) (st : List (List Clause)) :
    (runRows recording tail st [row]).1 = st ++ (written row (tail.filter isLive)).1 ∧
      (runRows recording tail st [row]).2 =
        (written row (tail.filter isLive)).2.map fun x => [x] := by
  have hlive : ∀ c ∈ tail.filter isLive, isLive c = true := fun c hc => (List.mem_filter.mp hc).2
  have h := runRow_recording hlive row st []
  rw [runRow_filter] at h
  exact h

/-- What a write query records. -/
theorem runWrite_recording (h : runWrite recording clauses [] = .ok r) :
    (∃ statement, clauses = [.ddl statement]) ∨
      renamePair (writeTail clauses) ≠ none ∧ [] ∈ r.1 ∨
        renamePair (writeTail clauses) = none ∧
          (r.1, r.2.flatten) = folded (writeTail clauses)
            (written (boundPrefix clauses) ((writeTail clauses).filter isLive)) := by
  unfold runWrite at h
  split at h
  · next statement => exact .inl ⟨statement, rfl⟩
  · simp at h
  obtain ⟨-, -, h⟩ := bind_eq_ok.mp h
  obtain ⟨-, -, h⟩ := bind_eq_ok.mp h
  obtain rfl := pure_eq_ok.mp h
  rw [bindPrefix_recording]
  refine .inr ?_
  cases hrename : renamePair (writeTail clauses) with
  | some pair =>
      refine .inl ⟨nofun, ?_⟩
      have h := (runRows_recording ((writeTail clauses).filter fun c => ¬ isLabelOnly c)
        (boundPrefix clauses) [[]]).1
      refine (congrArg (fun st => [] ∈ st) h).mpr ?_
      simp
  | none =>
      refine .inr ⟨rfl, ?_⟩
      obtain ⟨hstore, hout⟩ := runRows_recording (writeTail clauses) (boundPrefix clauses) []
      have hlength : (written (boundPrefix clauses) ((writeTail clauses).filter isLive)).2.length =
          ((writeTail clauses).filterMap returnOf).length := by
        rw [length_written_snd, filterMap_filter_isLive]
      have hfinish := finish_recording hlength
      have hresult := (congrArg (fun out => (finish recording (writeTail clauses) out).flatten)
        hout).trans hfinish
      unfold folded
      cases hfolds : folds (writeTail clauses) with
      | true => exact Prod.ext hstore (hresult.trans (if_pos hfolds))
      | false => exact Prod.ext hstore (hresult.trans (if_neg (by simp [hfolds])))

theorem isWrite_single : isWrite (.mk clauses none) = clauses.any isWriteClause := rfl

theorem runQuery_write (h : clauses.any isWriteClause = true) {M : Meaning} {st : M.Store} :
    runQuery M (.mk clauses none) st = runWrite M clauses st := by
  unfold runQuery
  rw [isWrite_single, if_pos h]

theorem writtenQuery_single : writtenQuery (.mk clauses none) = written [] clauses := by
  simp [writtenQuery, Query.branches]

theorem readPrefix_append_writeTail (clauses : List Clause) :
    readPrefix clauses ++ writeTail clauses = clauses :=
  List.takeWhile_append_dropWhile

theorem isPrefixClause_of_mem {c : Clause} (h : c ∈ readPrefix clauses) :
    isPrefixClause c = true := by
  unfold readPrefix at h
  induction clauses with
  | nil => simp at h
  | cons a clauses ih =>
      rw [List.takeWhile_cons] at h
      split at h
      · next ha =>
          rcases List.mem_cons.mp h with rfl | h
          · exact ha
          · exact ih h
      · simp at h

theorem written_split :
    written [] clauses = written (readPrefix clauses) (writeTail clauses) :=
  (congrArg (written []) (readPrefix_append_writeTail _).symm).trans
    (written_append fun _ => isPrefixClause_of_mem)

theorem filterMap_returnOf_writeTail :
    (writeTail clauses).filterMap returnOf = clauses.filterMap returnOf := by
  conv => rhs; rw [← readPrefix_append_writeTail clauses, List.filterMap_append]
  have hnone : (readPrefix clauses).filterMap returnOf = [] := by
    rw [List.filterMap_eq_nil_iff]
    intro c hc
    cases c with
    | return_ p => exact absurd (isPrefixClause_of_mem hc) (by simp [isPrefixClause])
    | _ => rfl
  rw [hnone, List.nil_append]

/-- Folding the results of a single `RETURN` hides none. -/
theorem folded_own {row : List Clause} {tail : List Clause}
    (h : folds tail = true → (tail.filterMap returnOf).length ≤ 1) :
    folded tail (written row tail) = written row tail := by
  unfold folded
  split
  · next hfolds =>
      have hlength := h hfolds
      rw [← length_written_snd row] at hlength
      exact Prod.ext rfl (List.take_of_length_le hlength)
  · rfl

/-- What a query whose write clauses are in place records. -/
theorem runWrite_placed (hplaced : WritePlaced clauses)
    (h : runWrite recording clauses [] = .ok r) : (r.1, r.2.flatten) = written [] clauses := by
  rcases hplaced with ⟨statement, rfl⟩ | ⟨hbinds, hlive, hrename, hfolds⟩
  · obtain rfl := Except.ok.inj h
    rfl
  · rcases runWrite_recording h with ⟨statement, rfl⟩ | ⟨hne, -⟩ | ⟨-, hrecord⟩
    · exact absurd (hlive (.ddl statement) (by simp [writeTail, isPrefixClause]))
        (by simp [isLive, isRowClause, returnOf])
    · exact absurd hrename hne
    · have hpre : boundPrefix clauses = readPrefix clauses := by
        unfold boundPrefix
        rcases hbinds with hnil | hbinds
        · rw [hnil, ite_self]
        · rw [if_pos hbinds]
      rw [hrecord, written_split, hpre, List.filter_eq_self.mpr hlive]
      refine folded_own fun h => ?_
      rw [filterMap_returnOf_writeTail]
      exact hfolds h

/-- A clause the write loop acts on stands behind the prefix. -/
theorem any_isRowClause_writeTail (h : clauses.any isRowClause = true) :
    (writeTail clauses).any isRowClause = true := by
  obtain ⟨c, hc, hrow⟩ := List.any_eq_true.mp h
  rw [← readPrefix_append_writeTail clauses] at hc
  refine List.any_eq_true.mpr ⟨c, ?_, hrow⟩
  refine (List.mem_append.mp hc).resolve_left fun hmem => ?_
  have := isPrefixClause_of_mem hmem
  cases c with
  | create _ | merge _ _ _ | set _ | remove _ | delete _ _ => simp [isPrefixClause] at this
  | _ => simp [isRowClause] at hrow

/-- No more clauses are shown than there are. -/
theorem shown_le (hrow : clauses.any isRowClause = true)
    (h : runWrite recording clauses [] = .ok r) (hmark : [] ∉ r.1)
    (hddl : ∀ statement, clauses ≠ [.ddl statement]) :
    shown (r.1, r.2.flatten) ≤ clauses.length := by
  rcases runWrite_recording h with ⟨statement, rfl⟩ | ⟨-, hmem⟩ | ⟨-, hrecord⟩
  · exact absurd rfl (hddl statement)
  · exact absurd hmem hmark
  · have hany : ((writeTail clauses).filter isLive).any isRowClause = true := by
      obtain ⟨c, hc, hrow⟩ := List.any_eq_true.mp (any_isRowClause_writeTail hrow)
      exact List.any_eq_true.mpr
        ⟨c, List.mem_filter.mpr ⟨hc, by simp [isLive, hrow]⟩, hrow⟩
    have hfold : shown (folded (writeTail clauses)
        (written (boundPrefix clauses) ((writeTail clauses).filter isLive))) ≤
        shown (written (boundPrefix clauses) ((writeTail clauses).filter isLive)) := by
      unfold folded
      split
      · exact Nat.add_le_add_left (List.length_take_le' _ _) _
      · exact Nat.le_refl _
    rw [hrecord]
    refine Nat.le_trans hfold ?_
    have hlive : ∀ c ∈ (writeTail clauses).filter isLive, isLive c = true :=
      fun c hc => (List.mem_filter.mp hc).2
    rw [((shown_written hlive (boundPrefix clauses)).1 hany).2]
    have hlength : clauses.length = (readPrefix clauses).length + (writeTail clauses).length := by
      rw [← List.length_append]
      exact congrArg _ (readPrefix_append_writeTail _).symm
    have hbound : (boundPrefix clauses).length ≤ (readPrefix clauses).length := by
      unfold boundPrefix
      split
      · exact Nat.le_refl _
      · exact Nat.zero_le _
    have := List.length_filter_le isLive (writeTail clauses)
    omega

theorem deleted_single {q' : Query} (h : Deleted (.mk clauses none) q') :
    ∃ pre c post, clauses = pre ++ c :: post ∧ q' = .mk (pre ++ post) none := by
  cases h with
  | head pre c post u => exact ⟨pre, c, post, rfl, rfl⟩

/-- A read query leaves the store. -/
theorem runQuery_read {M : Meaning} {q : Query} {st : M.Store} {r : M.Store × List M.Result}
    (hread : isWrite q = false) (h : runQuery M q st = .ok r) : r.1 = st := by
  unfold runQuery at h
  rw [if_neg (by simp [hread])] at h
  obtain ⟨out, -, h⟩ := bind_eq_ok.mp h
  obtain rfl := pure_eq_ok.mp h
  rfl

theorem isRowClause_of_isWriteClause {c : Clause} (h : isWriteClause c = true) :
    isRowClause c = true ∨ ∃ statement, c = .ddl statement := by
  cases c with
  | ddl statement => exact .inr ⟨statement, rfl⟩
  | create _ | merge _ _ _ | set _ | remove _ | delete _ _ => exact .inl rfl
  | _ => simp [isWriteClause] at h

theorem not_ddl_of_live (hlive : ∀ c ∈ writeTail clauses, isLive c = true) {statement : String} :
    .ddl statement ∉ clauses := by
  intro hmem
  rw [← readPrefix_append_writeTail clauses] at hmem
  rcases List.mem_append.mp hmem with hmem | hmem
  · exact absurd (isPrefixClause_of_mem hmem) (by simp [isPrefixClause])
  · exact absurd (hlive _ hmem) (by simp [isLive, isRowClause, returnOf])

theorem any_isRowClause (hwrite : clauses.any isWriteClause = true)
    (hddl : ∀ statement, .ddl statement ∉ clauses) : clauses.any isRowClause = true := by
  obtain ⟨c, hc, hkind⟩ := List.any_eq_true.mp hwrite
  rcases isRowClause_of_isWriteClause hkind with hrow | ⟨statement, rfl⟩
  · exact List.any_eq_true.mpr ⟨c, hc, hrow⟩
  · exact absurd hc (hddl statement)

/-- Every clause of a query of reading, live clauses shows; taking one out
shows fewer. -/
theorem noneIgnored_of_writePlaced (hwrite : clauses.any isWriteClause = true)
    (hplaced : WritePlaced clauses) (haccepted : Accepted (.mk clauses none)) :
    NoneIgnored (.mk clauses none) := by
  intro q' hq'
  obtain ⟨pre, c, post, hclauses, rfl⟩ := deleted_single hq'
  refine ⟨recording, [], fun heq => ?_⟩
  obtain ⟨r, hr⟩ := haccepted
  have hr' := heq.symm.trans hr
  rw [runQuery_write hwrite] at hr
  have hrecord := runWrite_placed hplaced hr
  rcases hplaced with ⟨statement, hddl⟩ | ⟨-, hlive, -⟩
  · -- A schema command stands alone; without it the query is empty.
    obtain ⟨rfl, rfl⟩ : pre = [] ∧ post = [] := by
      rw [hddl] at hclauses
      cases pre with
      | nil => exact ⟨rfl, ((List.cons.inj hclauses).2).symm⟩
      | cons _ _ => simp at hclauses
    simp [runQuery, isWrite, compileRead, compileBranch, require, bind, Except.bind] at hr'
  · have hddl (statement : String) : .ddl statement ∉ clauses := not_ddl_of_live hlive
    have hrow := any_isRowClause hwrite hddl
    have htail := any_isRowClause_writeTail hrow
    have hall := shown_written hlive (readPrefix clauses)
    have hshown : shown (r.1, r.2.flatten) = clauses.length := by
      rw [hrecord, written_split, (hall.1 htail).2, ← List.length_append,
        readPrefix_append_writeTail _]
    have hchanges : r.1 ≠ [] := by
      have := (hall.1 htail).1
      rwa [← written_split, ← hrecord] at this
    cases hwrite' : (pre ++ post).any isWriteClause with
    | false =>
        have hread : isWrite (.mk (pre ++ post) none) = false := hwrite'
        exact hchanges (runQuery_read hread hr')
    | true =>
        rw [runQuery_write hwrite'] at hr'
        have hmark : [] ∉ r.1 := fun hmem =>
          ne_nil_of_mem_written (by rw [← hrecord]; exact hmem) rfl
        have hddl' (statement : String) : .ddl statement ∉ pre ++ post := fun hmem =>
          hddl statement (hclauses ▸ (List.mem_append.mp hmem).elim (List.mem_append_left _)
            fun h => List.mem_append_right _ (List.mem_cons_of_mem _ h))
        have hrow' := any_isRowClause hwrite' hddl'
        have hle := shown_le hrow' hr' hmark fun statement heq =>
          hddl' statement (heq ▸ List.mem_singleton.mpr rfl)
        rw [hshown, hclauses] at hle
        simp only [List.length_append, List.length_cons] at hle
        omega

theorem head_writeTail {c : Clause} {rest : List Clause} (h : writeTail clauses = c :: rest) :
    isPrefixClause c = false := by
  have hnot := List.head?_dropWhile_not isPrefixClause clauses
  unfold writeTail at h
  rw [h] at hnot
  simpa using hnot

/-- A prefix ends where the first clause of another kind stands. -/
theorem split_of_head {pre rest : List Clause} (hpre : ∀ c ∈ pre, isPrefixClause c = true)
    (hrest : ∀ c ∈ rest.head?, isPrefixClause c = false) :
    readPrefix (pre ++ rest) = pre ∧ writeTail (pre ++ rest) = rest := by
  unfold readPrefix writeTail
  rw [List.takeWhile_append_of_pos hpre, List.dropWhile_append_of_pos hpre]
  cases rest with
  | nil => simp
  | cons c rest =>
      have hc : ¬isPrefixClause c = true := by simp [hrest c rfl]
      rw [List.takeWhile_cons_of_neg hc, List.dropWhile_cons_of_neg hc, List.append_nil]
      exact ⟨rfl, rfl⟩

/-- The label operations of the clauses one of the two kinds picks. -/
def pairOps (removed : Bool) : Clause → Option (List (String × String))
  | .remove ops => if removed then labelOps ops else some []
  | .set ops => if removed then some [] else labelOps ops
  | _ => some []

theorem renamePair_eq : renamePair clauses =
    ((clauses.mapM (pairOps true)).map List.flatten).bind fun removed =>
      ((clauses.mapM (pairOps false)).map List.flatten).bind fun added =>
        match removed, added with
        | [(rv, old)], [(av, new)] => if rv = av then some (old, new) else none
        | _, _ => none := by
  have hpair {f g : Clause → Option (List (String × String))} (hf : f = pairOps true)
      (hg : g = pairOps false) :
      (clauses.mapM f >>= fun removed => clauses.mapM g >>= fun added =>
        match removed.flatten, added.flatten with
        | [(rv, old)], [(av, new)] => if rv = av then some (old, new) else none
        | _, _ => none) =
      ((clauses.mapM (pairOps true)).map List.flatten).bind fun removed =>
        ((clauses.mapM (pairOps false)).map List.flatten).bind fun added =>
          match removed, added with
          | [(rv, old)], [(av, new)] => if rv = av then some (old, new) else none
          | _, _ => none := by
    subst hf hg
    cases clauses.mapM (pairOps true) <;> cases clauses.mapM (pairOps false) <;> rfl
  exact hpair (funext fun c => by cases c <;> rfl) (funext fun c => by cases c <;> rfl)

/-- A clause with no label operation leaves the renamed pair. -/
theorem renamePair_delete {pre post : List Clause} {c : Clause} (hc : isRowClause c = false) :
    renamePair (pre ++ c :: post) = renamePair (pre ++ post) := by
  have hflat (removed : Bool) :
      ((pre ++ c :: post).mapM (pairOps removed)).map List.flatten =
        ((pre ++ post).mapM (pairOps removed)).map List.flatten := by
    have hnone : pairOps removed c = some [] := by
      cases c with
      | set _ | remove _ => simp [isRowClause] at hc
      | _ => rfl
    rw [List.mapM_append, List.mapM_append, List.mapM_cons, hnone]
    cases pre.mapM (pairOps removed) <;> cases post.mapM (pairOps removed) <;> simp
  rw [renamePair_eq, renamePair_eq, hflat, hflat]

theorem runWrite_of_not_ddl {M : Meaning} {st : M.Store}
    (hddl : ∀ statement, .ddl statement ∉ clauses) :
    runWrite M clauses st = (do
      checkPrefix false (readPrefix clauses)
      require ((readPrefix clauses).any isWith → (readPrefix clauses).getLast?.any isWith)
        "WITH must be the last read clause before a write clause"
      let rows := bindPrefix M (readPrefix clauses) st
      let renamed := (renamePair (writeTail clauses)).bind fun r => M.rename r.1 r.2 st
      let (st, out) := match renamed with
        | some st => runRows M ((writeTail clauses).filter fun c => ¬ isLabelOnly c) st rows
        | none => runRows M (writeTail clauses) st rows
      return (st, finish M (writeTail clauses) out)) := by
  unfold runWrite
  split
  · next statement => exact absurd (List.mem_singleton.mpr rfl) (hddl statement)
  · next statement _ _ => exact absurd (List.mem_cons_self) (hddl statement)
  · rfl

/-- Runs agree when the rows are bound alike and the write loop sees the same
live clauses. -/
theorem runWrite_congr {clauses' : List Clause}
    (hddl : ∀ statement, .ddl statement ∉ clauses)
    (hddl' : ∀ statement, .ddl statement ∉ clauses')
    (hcheck : checkPrefix false (readPrefix clauses) = checkPrefix false (readPrefix clauses'))
    (hwith : ((readPrefix clauses).any isWith → (readPrefix clauses).getLast?.any isWith) ↔
      ((readPrefix clauses').any isWith → (readPrefix clauses').getLast?.any isWith))
    (hrows : ∀ (M : Meaning) (st : M.Store),
      bindPrefix M (readPrefix clauses) st = bindPrefix M (readPrefix clauses') st)
    (hlive : (writeTail clauses).filter isLive = (writeTail clauses').filter isLive)
    (hrename : renamePair (writeTail clauses) = none)
    (hrename' : renamePair (writeTail clauses') = none)
    (M : Meaning) (st : M.Store) : runWrite M clauses st = runWrite M clauses' st := by
  have hrun (rows : List M.Row) :
      runRows M (writeTail clauses) st rows = runRows M (writeTail clauses') st rows := by
    unfold runRows
    congr 1
    funext s row
    rw [← runRow_filter, hlive, runRow_filter]
  have hfirst (tail : List Clause) :
      (tail.filter isLive).findSome? returnOf = tail.findSome? returnOf := by
    rw [← List.head?_filterMap, ← List.head?_filterMap, filterMap_filter_isLive]
  have hfinish : finish M (writeTail clauses) = finish M (writeTail clauses') := by
    unfold finish
    rw [← hfirst, hlive, hfirst]
  rw [runWrite_of_not_ddl hddl, runWrite_of_not_ddl hddl', hcheck, hrename, hrename']
  simp only [Option.bind_none, hrows, hrun, hfinish, require, hwith]

theorem exists_last_not_live {tail : List Clause} (h : ¬∀ c ∈ tail, isLive c = true) :
    ∃ pre c post, tail = pre ++ c :: post ∧ isLive c = false ∧ ∀ d ∈ post, isLive d = true := by
  induction tail with
  | nil => exact absurd (fun _ h => absurd h List.not_mem_nil) h
  | cons a tail ih =>
      by_cases hrest : ∀ c ∈ tail, isLive c = true
      · refine ⟨[], a, tail, rfl, ?_, hrest⟩
        exact Bool.eq_false_iff.mpr fun ha => h (List.forall_mem_cons.mpr ⟨ha, hrest⟩)
      · obtain ⟨pre, c, post, rfl, hc, hpost⟩ := ih hrest
        exact ⟨a :: pre, c, post, rfl, hc, hpost⟩

theorem not_isPrefixClause_of_live {c : Clause} (h : isLive c = true) :
    isPrefixClause c = false := by
  rcases isLive_cases h with hrow | ⟨p, rfl⟩
  · cases c with
    | create _ | merge _ _ _ | set _ | remove _ | delete _ _ => rfl
    | _ => simp [isRowClause] at hrow
  · rfl

/-- A clause the write loop passes over may as well be left out. -/
theorem live_of_noneIgnored (hwrite : clauses.any isWriteClause = true)
    (hddl : ∀ statement, .ddl statement ∉ clauses)
    (hrename : renamePair (writeTail clauses) = none)
    (hnone : NoneIgnored (.mk clauses none)) :
    ∀ c ∈ writeTail clauses, isLive c = true := by
  refine Classical.byContradiction fun hnot => ?_
  obtain ⟨pre, c, post, htail, hc, hpost⟩ := exists_last_not_live hnot
  have hclauses : clauses = (readPrefix clauses ++ pre) ++ c :: post := by
    rw [List.append_assoc, ← htail, readPrefix_append_writeTail _]
  have hrow : isRowClause c = false := Bool.eq_false_iff.mpr fun h => by simp [isLive, h] at hc
  have hkind : isWriteClause c = false := Bool.eq_false_iff.mpr fun h => by
    rcases isRowClause_of_isWriteClause h with h | ⟨statement, rfl⟩
    · exact absurd h (by simp [hrow])
    · exact hddl statement (hclauses ▸ List.mem_append_right _ List.mem_cons_self)
  -- Without the clause the prefix ends at the same place.
  have hsplit : readPrefix (readPrefix clauses ++ (pre ++ post)) = readPrefix clauses ∧
      writeTail (readPrefix clauses ++ (pre ++ post)) = pre ++ post := by
    refine split_of_head (fun _ => isPrefixClause_of_mem) fun d hd => ?_
    cases pre with
    | nil => exact not_isPrefixClause_of_live (hpost d (List.mem_of_mem_head? hd))
    | cons a pre =>
        obtain rfl : a = d := Option.some.inj hd
        exact head_writeTail htail
  have hddl' (statement : String) : .ddl statement ∉ readPrefix clauses ++ (pre ++ post) := by
    refine fun hmem => hddl statement (hclauses ▸ ?_)
    rw [← List.append_assoc] at hmem
    exact (List.mem_append.mp hmem).elim (List.mem_append_left _)
      fun h => List.mem_append_right _ (List.mem_cons_of_mem _ h)
  have hwrite' : (readPrefix clauses ++ (pre ++ post)).any isWriteClause = true := by
    rw [hclauses] at hwrite
    simpa [hkind, Bool.or_assoc] using hwrite
  obtain ⟨M, st, hne⟩ := hnone (.mk (readPrefix clauses ++ (pre ++ post)) none) (by
    have h := Deleted.head (readPrefix clauses ++ pre) c post none
    rwa [← hclauses, List.append_assoc] at h)
  refine hne ?_
  rw [runQuery_write hwrite, runQuery_write hwrite']
  refine runWrite_congr hddl hddl' (by rw [hsplit.1]) (by rw [hsplit.1])
    (fun M st => by rw [hsplit.1]) ?_ hrename ?_ M st
  · rw [hsplit.2, htail]
    simp [hc]
  · rw [hsplit.2, ← renamePair_delete hrow, ← htail, hrename]

theorem checkPrefix_of_no_with {seen : Bool} {pre : List Clause} (h : pre.any isWith = false) :
    checkPrefix seen pre = .ok () := by
  induction pre with
  | nil => rfl
  | cons c pre ih =>
      simp only [List.any_cons, Bool.or_eq_false_iff] at h
      cases c with
      | with_ _ _ => simp [isWith] at h
      | _ => exact ih h.2

/-- A prefix that binds no variable may as well be left out. -/
theorem bindsRows_of_noneIgnored (hwrite : clauses.any isWriteClause = true)
    (hddl : ∀ statement, .ddl statement ∉ clauses)
    (hrename : renamePair (writeTail clauses) = none)
    (hnone : NoneIgnored (.mk clauses none)) :
    readPrefix clauses = [] ∨ bindsRows (readPrefix clauses) = true := by
  cases hpre : readPrefix clauses with
  | nil => exact .inl rfl
  | cons c pre =>
      refine .inr (Classical.byContradiction fun hbinds => ?_)
      have hclauses : clauses = [] ++ c :: (pre ++ writeTail clauses) := by
        rw [List.nil_append, ← List.cons_append, ← hpre, readPrefix_append_writeTail _]
      have hbinds' : bindsRows pre = false := by
        simp only [bindsRows, List.any_cons, List.flatMap_cons, Bool.not_eq_true,
          Bool.or_eq_false_iff, Bool.not_eq_false', List.isEmpty_iff, List.append_eq_nil_iff]
          at hbinds ⊢
        exact ⟨hbinds.1.2, hbinds.2.2⟩
      have hwith : (c :: pre).any isWith = false := by
        simp only [bindsRows, Bool.not_eq_true, Bool.or_eq_false_iff] at hbinds
        exact hbinds.1
      have hwith' : pre.any isWith = false :=
        (Bool.or_eq_false_iff.mp (List.any_cons ▸ hwith)).2
      have hmem : ∀ d ∈ pre, isPrefixClause d = true := fun d hd =>
        isPrefixClause_of_mem (hpre ▸ List.mem_cons_of_mem _ hd)
      have hsplit : readPrefix (pre ++ writeTail clauses) = pre ∧
          writeTail (pre ++ writeTail clauses) = writeTail clauses := by
        refine split_of_head hmem fun d hd => ?_
        obtain ⟨rest, htail⟩ := List.head?_eq_some_iff.mp hd
        exact head_writeTail htail
      have hddl' (statement : String) : .ddl statement ∉ pre ++ writeTail clauses := fun h =>
        hddl statement (hclauses ▸ List.mem_cons_of_mem _ h)
      have hkind : isWriteClause c = false := by
        have hc : isPrefixClause c = true := isPrefixClause_of_mem (hpre ▸ List.mem_cons_self)
        cases c with
        | match_ _ _ _ | unwind _ _ | with_ _ _ => rfl
        | _ => simp [isPrefixClause] at hc
      have hwrite' : (pre ++ writeTail clauses).any isWriteClause = true := by
        rw [hclauses] at hwrite
        simpa [hkind] using hwrite
      obtain ⟨M, st, hne⟩ := hnone (.mk (pre ++ writeTail clauses) none) (by
        have h := Deleted.head [] c (pre ++ writeTail clauses) none
        rwa [← hclauses] at h)
      refine hne ?_
      rw [runQuery_write hwrite, runQuery_write hwrite']
      refine runWrite_congr hddl hddl' ?_ ?_ (fun M st => ?_) ?_ hrename ?_ M st
      · rw [hpre, hsplit.1, checkPrefix_of_no_with hwith, checkPrefix_of_no_with hwith']
      · rw [hpre, hsplit.1, hwith, hwith']
        simp
      · rw [hpre, hsplit.1, bindPrefix, bindPrefix, hbinds', if_neg hbinds, if_neg (by simp)]
      · rw [hsplit.2]
      · rw [hsplit.2, hrename]

/-- A schema command among other clauses is not executed. -/
theorem not_ddl_of_inPlace {row : List Clause} {tail : List Clause}
    (h : (folded tail (written row (tail.filter isLive))).1 = (written [] clauses).1)
    (htail : tail = writeTail clauses) {statement : String} : .ddl statement ∉ clauses := by
  intro hmem
  have hchanges : (folded tail (written row (tail.filter isLive))).1 =
      (written row (tail.filter isLive)).1 := by
    unfold folded
    split <;> rfl
  have hmem : .ddl statement ∈ tail := by
    rw [← readPrefix_append_writeTail clauses] at hmem
    exact htail ▸ (List.mem_append.mp hmem).resolve_left fun h =>
      absurd (isPrefixClause_of_mem h) (by simp [isPrefixClause])
  have hcount := congrArg List.length (hchanges.symm.trans h)
  rw [length_written_fst, written_split, length_written_fst, ← htail, List.filter_filter] at hcount
  have hall : tail.filter (fun c => isWriteClause c && isLive c) =
      (tail.filter isWriteClause).filter isLive := by
    rw [List.filter_filter]
    simp only [Bool.and_comm]
  rw [hall] at hcount
  have hlive := List.length_filter_eq_length_iff.mp hcount (.ddl statement)
    (List.mem_filter.mpr ⟨hmem, rfl⟩)
  simp [isLive, isRowClause, returnOf] at hlive

theorem writePlaced_of_inPlace (hwrite : clauses.any isWriteClause = true)
    (haccepted : Accepted (.mk clauses none)) (hplace : InPlace (.mk clauses none))
    (hnone : NoneIgnored (.mk clauses none)) : WritePlaced clauses := by
  obtain ⟨r, hr⟩ := haccepted
  have hrecord := hplace r hr
  rw [writtenQuery_single] at hrecord
  rw [runQuery_write hwrite] at hr
  rcases runWrite_recording hr with hddl | ⟨-, hmark⟩ | ⟨hrename, hfolded⟩
  · exact .inl hddl
  · have hmem : [] ∈ (written [] clauses).1 := hrecord ▸ hmark
    exact absurd rfl (ne_nil_of_mem_written hmem)
  · have hwritten := hfolded.symm.trans hrecord
    have hddl (statement : String) : .ddl statement ∉ clauses :=
      not_ddl_of_inPlace (congrArg Prod.fst hwritten) rfl
    refine .inr ⟨bindsRows_of_noneIgnored hwrite hddl hrename hnone,
      live_of_noneIgnored hwrite hddl hrename hnone, hrename, fun hfolds => ?_⟩
    have hcount := congrArg List.length (congrArg Prod.snd hwritten)
    unfold folded at hcount
    rw [if_pos hfolds, length_written_snd] at hcount
    exact hcount ▸ List.length_take_le 1 _

end Writing

section Reading

variable {q : Query} {clauses : List Clause}

/-- What a branch of a read query shows: the clauses that bind rows, and its
last `RETURN`. -/
def shownBranch (clauses : List Clause) : List Clause :=
  clauses.filter (fun c => (returnOf c).isNone) ++
    (clauses.filterMap returnOf).getLast?.toList.map Clause.return_

def clauseCount (q : Query) : Nat := (Query.branches q).flatten.length

theorem compileBranch_recording {x : List String × List (List (List Clause))}
    (h : compileBranch recording clauses [] = .ok x) :
    (clauses.filterMap returnOf).getLast?.isSome ∧ x.2.flatten = [shownBranch clauses] := by
  obtain ⟨-, -, h⟩ := bind_eq_ok.mp h
  split at h
  · simp at h
  · next p hp =>
      obtain rfl := pure_eq_ok.mp h
      have hrows (binding : List Clause) (rows : List (List Clause)) :
          binding.foldl (fun rows c => recording.bind c [] rows) rows =
            rows.map fun row => row ++ binding := by
        induction binding generalizing rows with
        | nil => simp
        | cons c binding ih =>
            refine (ih (recording.bind c [] rows)).trans ?_
            simp [Function.comp_def]
      refine ⟨by simp [hp], ?_⟩
      simp only [hrows, shownBranch, hp]
      rfl

theorem compileRead_recording {x : List String × List (List (List Clause))}
    (h : compileRead recording q [] = .ok x) :
    (∀ b ∈ Query.branches q, (b.filterMap returnOf).getLast?.isSome) ∧
      x.2.flatten = (Query.branches q).map shownBranch := by
  induction q using Query.branches.induct generalizing x with
  | case1 clauses =>
      obtain ⟨hsome, hshown⟩ := compileBranch_recording h
      exact ⟨by simpa [Query.branches] using hsome, hshown⟩
  | case2 clauses all tail ih =>
      obtain ⟨head, hhead, h⟩ := bind_eq_ok.mp h
      obtain ⟨rest, hrest, h⟩ := bind_eq_ok.mp h
      split at h
      · simp at h
      · obtain rfl := pure_eq_ok.mp h
        obtain ⟨hsome, hshown⟩ := compileBranch_recording hhead
        obtain ⟨hsome', hshown'⟩ := ih hrest
        refine ⟨List.forall_mem_cons.mpr ⟨hsome, hsome'⟩, ?_⟩
        exact (List.flatten_append).trans (by rw [hshown, hshown']; rfl)

theorem runQuery_eq_compileRead {M : Meaning} {st : M.Store} (hread : isWrite q = false) :
    runQuery M q st = (compileRead M q st).map fun r => (st, r.2) := by
  unfold runQuery
  rw [if_neg (by simp [hread])]
  cases compileRead M q st <;> rfl

theorem runQuery_recording {r : List (List Clause) × List (List (List Clause))}
    (hread : isWrite q = false) (h : runQuery recording q [] = .ok r) :
    (∀ b ∈ Query.branches q, (b.filterMap returnOf).getLast?.isSome) ∧ r.1 = [] ∧
      r.2.flatten = (Query.branches q).map shownBranch := by
  rw [runQuery_eq_compileRead hread] at h
  cases hcompile : compileRead recording q [] with
  | error e => simp [hcompile, Except.map] at h
  | ok x =>
      rw [hcompile] at h
      obtain rfl := Except.ok.inj h
      obtain ⟨hsome, hshown⟩ := compileRead_recording hcompile
      exact ⟨hsome, rfl, hshown⟩

theorem any_isWriteClause_of_mem (hread : isWrite q = false) {b : List Clause}
    (hb : b ∈ Query.branches q) : b.any isWriteClause = false := by
  induction q using Query.branches.induct with
  | case1 clauses => exact (List.mem_singleton.mp hb) ▸ hread
  | case2 clauses all tail ih =>
      simp only [isWrite, Bool.or_eq_false_iff] at hread
      rcases List.mem_cons.mp hb with rfl | hb
      · exact hread.2
      · exact ih hread.1 hb

/-- Reading clauses change nothing. -/
theorem written_read {row : List Clause} (hread : clauses.any isWriteClause = false) :
    (written row clauses).1 = [] := by
  refine List.length_eq_zero_iff.mp ?_
  rw [length_written_fst]
  simpa [List.filter_eq_nil_iff] using hread

theorem written_return {row pre post : List Clause} {p : Projection}
    (hread : (pre ++ .return_ p :: post).any isWriteClause = false)
    (hpre : ∀ c ∈ pre, returnOf c = none) (hpost : ∀ c ∈ post, returnOf c = none) :
    (written row (pre ++ .return_ p :: post)).2 = [row ++ pre ++ [Clause.return_ p]] := by
  induction pre generalizing row with
  | nil =>
      have hnone : (written row post).2 = [] := by
        refine List.length_eq_zero_iff.mp ?_
        rw [length_written_snd]
        simpa [List.filterMap_eq_nil_iff] using hpost
      show (row ++ [Clause.return_ p]) :: (written row post).2 = _
      rw [hnone, List.append_nil]
  | cons c pre ih =>
      obtain ⟨hc, hpre⟩ := List.forall_mem_cons.mp hpre
      rw [List.cons_append, List.any_cons, Bool.or_eq_false_iff] at hread
      have hnext : written row (c :: (pre ++ .return_ p :: post)) =
          written (row ++ [c]) (pre ++ .return_ p :: post) := by
        cases c with
        | return_ _ => simp [returnOf] at hc
        | match_ _ _ _ | unwind _ _ | with_ _ _ | call _ _ _ => rfl
        | create _ | merge _ _ _ | set _ | remove _ | delete _ _ | ddl _ =>
            simp [isWriteClause] at hread
      rw [List.cons_append, hnext, ih hread.2 hpre, List.append_assoc row, List.singleton_append]

theorem shownBranch_return {pre post : List Clause} {p : Projection}
    (hpre : ∀ c ∈ pre, returnOf c = none) (hpost : ∀ c ∈ post, returnOf c = none) :
    shownBranch (pre ++ .return_ p :: post) = pre ++ post ++ [Clause.return_ p] := by
  have hall {cs : List Clause} (h : ∀ c ∈ cs, returnOf c = none) :
      cs.filter (fun c => (returnOf c).isNone) = cs ∧ cs.filterMap returnOf = [] :=
    ⟨List.filter_eq_self.mpr fun c hc => by simp [h c hc], List.filterMap_eq_nil_iff.mpr h⟩
  have hp : returnOf (.return_ p) = some p := rfl
  unfold shownBranch
  simp only [List.filter_append, List.filter_cons, List.filterMap_append, List.filterMap_cons,
    (hall hpre).1, (hall hpre).2, (hall hpost).1, (hall hpost).2, hp]
  simp

theorem inPlace_of_readPlaced (hread : isWrite q = false)
    (hplaced : ∀ b ∈ Query.branches q, ReadPlaced b) : InPlace q := by
  intro r hr
  obtain ⟨-, hstore, hresult⟩ := runQuery_recording hread hr
  have hchanges : (writtenQuery q).1 = [] :=
    List.flatMap_eq_nil_iff.mpr fun b hb => written_read (any_isWriteClause_of_mem hread hb)
  have hresults : (writtenQuery q).2 = (Query.branches q).map shownBranch := by
    refine Eq.trans (congrArg List.flatten (List.map_congr_left fun b hb => ?_))
      List.map_eq_flatMap.symm
    obtain ⟨pre, p, rfl, hpre⟩ := hplaced b hb
    have hnone : ∀ c ∈ ([] : List Clause), returnOf c = none := fun _ h =>
      absurd h List.not_mem_nil
    rw [written_return (any_isWriteClause_of_mem hread hb) hpre hnone,
      shownBranch_return hpre hnone]
    simp
  exact Prod.ext (hstore.trans hchanges.symm) (hresult.trans hresults.symm)

theorem isWrite_deleted {q q' : Query} (h : Deleted q q') (hread : isWrite q = false) :
    isWrite q' = false := by
  induction h with
  | head pre c post u =>
      cases u with
      | none => simp_all [isWrite]
      | some u => simp_all [isWrite]
  | tail clauses all _ ih =>
      simp only [isWrite, Bool.or_eq_false_iff] at hread ⊢
      exact ⟨ih hread.1, hread.2⟩

theorem clauseCount_deleted {q q' : Query} (h : Deleted q q') :
    clauseCount q = clauseCount q' + 1 := by
  induction h with
  | head pre c post u =>
      cases u with
      | none => simp [clauseCount, Query.branches]; omega
      | some u => simp [clauseCount, Query.branches]; omega
  | tail clauses all _ ih =>
      simp only [clauseCount, Query.branches, List.flatten_cons, List.length_append] at ih ⊢
      omega

theorem length_shownBranch_le (clauses : List Clause) :
    (shownBranch clauses).length ≤ clauses.length := by
  have hcount : clauses.length = (clauses.filter fun c => (returnOf c).isNone).length +
      (clauses.filterMap returnOf).length := by
    induction clauses with
    | nil => rfl
    | cons c clauses ih =>
        cases hc : returnOf c with
        | none => simp [hc, ih]; omega
        | some p => simp [hc, ih]; omega
  unfold shownBranch
  have hlast : (clauses.filterMap returnOf).getLast?.toList.length ≤
      (clauses.filterMap returnOf).length := by
    cases clauses.filterMap returnOf with
    | nil => simp
    | cons p ps => simp [List.getLast?_cons]
  simp only [List.length_append, List.length_map]
  omega

theorem length_flatten_shownBranch_le (branches : List (List Clause)) :
    (branches.map shownBranch).flatten.length ≤ branches.flatten.length := by
  induction branches with
  | nil => exact Nat.le_refl _
  | cons b branches ih =>
      simp only [List.map_cons, List.flatten_cons, List.length_append]
      exact Nat.add_le_add (length_shownBranch_le b) ih

theorem noneIgnored_of_readPlaced (hread : isWrite q = false)
    (hplaced : ∀ b ∈ Query.branches q, ReadPlaced b) (haccepted : Accepted q) :
    NoneIgnored q := by
  intro q' hq'
  refine ⟨recording, [], fun heq => ?_⟩
  obtain ⟨r, hr⟩ := haccepted
  obtain ⟨-, -, hshown⟩ := runQuery_recording hread hr
  obtain ⟨-, -, hshown'⟩ := runQuery_recording (isWrite_deleted hq' hread) (heq.symm.trans hr)
  have hall (b : List Clause) (hb : b ∈ Query.branches q) : shownBranch b = b := by
    obtain ⟨pre, p, rfl, hpre⟩ := hplaced b hb
    rw [shownBranch_return hpre fun _ h => absurd h List.not_mem_nil, List.append_nil]
  have hle := length_flatten_shownBranch_le (Query.branches q')
  have hsame := hshown.symm.trans hshown'
  rw [List.map_congr_left hall, List.map_id'] at hsame
  rw [← hsame] at hle
  have := clauseCount_deleted hq'
  unfold clauseCount at this
  omega

/-- Only the last `RETURN` of a branch is used. -/
theorem compileBranch_drop_return {M : Meaning} {st : M.Store} {pre post : List Clause}
    {p : Projection} (hpost : post.filterMap returnOf ≠ []) :
    compileBranch M (pre ++ .return_ p :: post) st = compileBranch M (pre ++ post) st := by
  have hp : returnOf (.return_ p) = some p := rfl
  have hlast : ((pre ++ .return_ p :: post).filterMap returnOf).getLast? =
      ((pre ++ post).filterMap returnOf).getLast? := by
    simp only [List.filterMap_append, List.filterMap_cons, hp]
    cases hreturns : post.filterMap returnOf with
    | nil => exact absurd hreturns hpost
    | cons q qs => simp [List.getLast?_append, List.getLast?_cons]
  have hbinding : (pre ++ .return_ p :: post).filter (fun c => (returnOf c).isNone) =
      (pre ++ post).filter fun c => (returnOf c).isNone := by
    simp [hp]
  have hwrite : (∀ c ∈ pre ++ .return_ p :: post, isWriteClause c = false) ↔
      ∀ c ∈ pre ++ post, isWriteClause c = false := by
    have hkind : isWriteClause (.return_ p) = false := rfl
    simp only [List.forall_mem_append, List.forall_mem_cons, hkind, true_and]
  unfold compileBranch
  rw [hlast, hbinding]
  simp only [require, hwrite]

/-- A query with two `RETURN`s in a branch runs without the first of them. -/
theorem deleted_of_two_returns {b pre post : List Clause} {p : Projection}
    (hb : b ∈ Query.branches q) (hsplit : b = pre ++ .return_ p :: post)
    (hpost : post.filterMap returnOf ≠ []) :
    ∃ q', Deleted q q' ∧ ∀ (M : Meaning) (st : M.Store),
      compileRead M q st = compileRead M q' st := by
  induction q using Query.branches.induct with
  | case1 clauses =>
      obtain rfl := List.mem_singleton.mp hb
      subst hsplit
      exact ⟨_, .head pre _ post none, fun M st => compileBranch_drop_return hpost⟩
  | case2 clauses all tail ih =>
      rcases List.mem_cons.mp hb with rfl | hb
      · subst hsplit
        refine ⟨_, .head pre _ post (some (all, tail)), fun M st => ?_⟩
        simp only [compileRead, compileBranch_drop_return hpost]
      · obtain ⟨q', hq', hrun⟩ := ih hb
        refine ⟨_, .tail clauses all hq', fun M st => ?_⟩
        simp only [compileRead, hrun]

theorem exists_return_split (h : (clauses.filterMap returnOf).getLast?.isSome) :
    ∃ pre p post, clauses = pre ++ Clause.return_ p :: post ∧ ∀ c ∈ pre, returnOf c = none := by
  induction clauses with
  | nil => simp at h
  | cons c clauses ih =>
      cases hc : returnOf c with
      | some p =>
          obtain rfl : c = .return_ p := by
            cases c with
            | return_ p' => exact congrArg Clause.return_ (Option.some.inj hc)
            | _ => simp [returnOf] at hc
          exact ⟨[], p, clauses, rfl, fun _ h => absurd h List.not_mem_nil⟩
      | none =>
          rw [List.filterMap_cons_none hc] at h
          obtain ⟨pre, p, post, rfl, hpre⟩ := ih h
          exact ⟨c :: pre, p, post, rfl, List.forall_mem_cons.mpr ⟨hc, hpre⟩⟩

theorem eq_of_flatMap_eq_map {α β : Type} {f : α → List β} {g : α → β} {xs : List α}
    (hone : ∀ x ∈ xs, ∃ y, f x = [y]) (h : xs.flatMap f = xs.map g) : ∀ x ∈ xs, f x = [g x] := by
  induction xs with
  | nil => exact fun _ h => absurd h List.not_mem_nil
  | cons x xs ih =>
      obtain ⟨hx, hxs⟩ := List.forall_mem_cons.mp hone
      obtain ⟨y, hy⟩ := hx
      rw [List.flatMap_cons, hy, List.map_cons, List.singleton_append] at h
      obtain ⟨rfl, hrest⟩ := List.cons.inj h
      exact List.forall_mem_cons.mpr ⟨hy, ih hxs hrest⟩

theorem readPlaced_of_inPlace (hread : isWrite q = false) (haccepted : Accepted q)
    (hplace : InPlace q) (hnone : NoneIgnored q) : ∀ b ∈ Query.branches q, ReadPlaced b := by
  obtain ⟨r, hr⟩ := haccepted
  obtain ⟨hsome, -, hshown⟩ := runQuery_recording hread hr
  have hrecord : (Query.branches q).map shownBranch =
      (Query.branches q).flatMap fun b => (written [] b).2 :=
    hshown.symm.trans (congrArg Prod.snd (hplace r hr))
  -- A branch has one `RETURN`, since a second would hide the first.
  have hone : ∀ b ∈ Query.branches q, ∃ pre p post, b = pre ++ .return_ p :: post ∧
      (∀ c ∈ pre, returnOf c = none) ∧ ∀ c ∈ post, returnOf c = none := by
    intro b hb
    obtain ⟨pre, p, post, hsplit, hpre⟩ := exists_return_split (hsome b hb)
    refine ⟨pre, p, post, hsplit, hpre, Classical.byContradiction fun hpost => ?_⟩
    obtain ⟨q', hq', hrun⟩ := deleted_of_two_returns hb hsplit fun h =>
      hpost (List.filterMap_eq_nil_iff.mp h)
    obtain ⟨M, st, hne⟩ := hnone q' hq'
    refine hne ?_
    rw [runQuery_eq_compileRead hread, runQuery_eq_compileRead (isWrite_deleted hq' hread), hrun]
  have hbranch := eq_of_flatMap_eq_map (fun b hb => by
    obtain ⟨pre, p, post, rfl, hpre, hpost⟩ := hone b hb
    exact ⟨_, written_return (any_isWriteClause_of_mem hread hb) hpre hpost⟩) hrecord.symm
  intro b hb
  obtain ⟨pre, p, post, rfl, hpre, hpost⟩ := hone b hb
  have hsame := hbranch _ hb
  rw [written_return (any_isWriteClause_of_mem hread hb) hpre hpost,
    shownBranch_return hpre hpost] at hsame
  have hlength := congrArg List.length (List.singleton_inj.mp hsame)
  simp only [List.nil_append, List.length_append] at hlength
  obtain rfl := List.length_eq_zero_iff.mp (show post.length = 0 by omega)
  exact ⟨pre, p, rfl, hpre⟩

end Reading

def nodePattern (v : String) : Pattern := ⟨none, [.node ⟨some v, [], []⟩]⟩

/-- `MATCH (a) CREATE (b)`. -/
def matchCreate : Query :=
  .mk [.match_ [nodePattern "a"] false none, .create [nodePattern "b"]] none

/-- `CREATE (b) MATCH (a)`. -/
def createMatch : Query :=
  .mk [.create [nodePattern "b"], .match_ [nodePattern "a"] false none] none

end OntologicalDb.ClauseOrder
