import DuckDB.Catalog.Equiv.CatalogStep
import DuckDB.Transaction.Equiv.Isolation

/-!
# What transactions see of a catalog set, and what they change

* `getEntry_eq_snapshot`: in every run whose commit ids stay below the transaction ids, `GetEntry`
  gives a transaction its snapshot, and a rollback changes nothing for the other transactions.
* `actsOnVisible_iff`: in such a run, a transaction acts on the version that it sees, or gets a
  conflict, exactly when the newest version was not committed after it started.
-/

namespace DuckDB

open List CatalogHistory TransactionManager CatalogSet Database CatalogWrite CatalogVersion Theory

variable {E : Type*}

/-! ### Reading the history -/

variable {α β : Type*} {number : α → ℕ} {items : α → List β}

theorem blocks_filter {p : ℕ → Bool} {l : List α} :
    (blocks number items l).filter (p ·.1) = blocks number items (l.filter (p <| number ·)) := by
  induction l with
  | nil => rfl
  | cons a l ih =>
    rw [blocks_cons, filter_append, ih]
    by_cases ha : p (number a)
    · rw [filter_cons, if_pos ha, blocks_cons]
      congr 1
      refine filter_eq_self.2 fun x hx => ?_
      obtain ⟨b, -, rfl⟩ := mem_map.1 hx
      exact ha
    · rw [filter_cons, if_neg ha]
      have hnone : ((items a).reverse.map (number a, ·)).filter (p ·.1) = [] := by
        refine filter_eq_nil_iff.2 fun x hx => ?_
        obtain ⟨b, -, rfl⟩ := mem_map.1 hx
        exact ha
      rw [hnone, nil_append]

theorem map_snd_blocks_reverse {l : List α} :
    (blocks number items l.reverse).map (·.2) = (l.flatMap items).reverse := by
  rw [blocks, map_flatMap, reverse_flatMap]
  refine flatMap_congr fun a _ => ?_
  rw [map_map]
  exact map_id _

/-- The operation is a commit. -/
def CatalogOp.isCommit : CatalogOp E → Bool
  | .commit _ => true
  | _ => false

namespace CatalogState

/-- A commit takes its id while there are ids below those of the transactions. -/
def CommitsBelow (s : CatalogState E) (op : CatalogOp E) : Prop :=
  op.isCommit → s.transactionManager.currentStartTimestamp < transactionIdStart

instance (s : CatalogState E) (op : CatalogOp E) : Decidable (CommitsBelow s op) :=
  inferInstanceAs (Decidable (_ → _))

namespace Invariant

variable {s : CatalogState E} {h : CatalogHistory E} {t : Transaction EntryPointer}

/-- The versions that a transaction sees: its own, and those committed before it started. -/
theorem filter_versions (hs : s.Invariant h)
    (hbelow : ∀ c ∈ h.committed, c.commitId < transactionIdStart)
    (ht : t ∈ s.transactionManager.activeTransactions) (name : String) :
    (h.versions s.transactionManager.activeTransactions name).filter (t.sees ·.1) =
      (versionsOf name (h.pending t.transactionId)).reverse.map (t.transactionId, ·) ++
        blocks (·.commitId) (fun c => versionsOf name c.versions)
          (h.committed.filter (·.commitId < t.startTime)).reverse := by
  obtain ⟨before, after, hsplit, -, hne⟩ := hs.managed.split ht
  have hself : t.sees t.transactionId := by simp [Transaction.sees]
  have hother : ∀ u ∈ before ++ after, ¬t.sees u.transactionId = true := by
    intro u hu
    have hu' : u ∈ s.transactionManager.activeTransactions := by
      rw [hsplit]
      simp only [mem_append, mem_cons] at hu ⊢
      tauto
    have hge := hs.managed.le_id hu'
    have hlt := (hs.managed.startTime_lt ht).2
    simp only [Transaction.sees, Bool.or_eq_true, beq_iff_eq, decide_eq_true_eq, not_or, not_lt]
    exact ⟨hne u hu, by omega⟩
  have hactive : s.transactionManager.activeTransactions.filter
      (fun u => t.sees u.transactionId) = [t] := by
    rw [hsplit, filter_append, filter_cons, if_pos hself,
      filter_eq_nil_iff.2 fun u hu => hother u (mem_append_left _ hu),
      filter_eq_nil_iff.2 fun u hu => hother u (mem_append_right _ hu)]
    rfl
  have hcommitted : h.committed.reverse.filter (fun c => t.sees c.commitId) =
      (h.committed.filter (·.commitId < t.startTime)).reverse := by
    rw [← filter_reverse]
    refine filter_congr fun c hc => ?_
    have hlt := hbelow c (mem_reverse.1 hc)
    have hge := hs.managed.le_id ht
    have hne : (c.commitId == t.transactionId) = false := by
      rw [beq_eq_false_iff_ne]
      omega
    rw [Transaction.sees, hne, Bool.false_or]
  rw [versions, filter_append, blocks_filter, blocks_filter, hactive, hcommitted, blocks_cons]
  exact congrArg (· ++ _) (append_nil _)

/-- **`GetEntry` gives the snapshot.** -/
theorem getEntry_eq (hs : s.Invariant h)
    (hbelow : ∀ c ∈ h.committed, c.commitId < transactionIdStart)
    (ht : t ∈ s.transactionManager.activeTransactions) (name : String) :
    s.set.getEntry t name = h.snapshot t.transactionId t.startTime name := by
  have hn := hs.names name
  have hfind : s.set.getEntry t name =
      ((h.versions s.transactionManager.activeTransactions name).find? (t.sees ·.1)).bind
        (·.2) := by
    by_cases hnil : s.set.data name = []
    · rw [hn.unknown hnil, getEntry, hnil]
      rfl
    · refine getEntryForTransaction_eq hnil hn.values fun v hv => ?_
      have hlt := hn.lost v hv t ht
      simp [Transaction.sees, hlt]
  have hsnd : ∀ o : Option (ℕ × Option E), o.bind (·.2) = (o.map (·.2)).join := by
    intro o
    cases o <;> rfl
  rw [hfind, ← head?_filter, hs.filter_versions hbelow ht name, hsnd, ← head?_map,
    map_append, map_snd_blocks_reverse, map_map, head?_append, head?_reverse]
  have hown : ((versionsOf name (h.pending t.transactionId)).reverse.map
      ((fun x : ℕ × Option E => x.2) ∘ fun v => (t.transactionId, v))).head? =
      (versionsOf name (h.pending t.transactionId)).getLast? := by
    rw [← head?_reverse]
    exact congrArg List.head? (map_id _)
  rw [hown]
  rfl

end Invariant

/-! ### The snapshot of every transaction -/

variable {v : CatalogVersion E} {ops : List (CatalogOp E)} {older : List (CatalogVersion E)}
  {name : String}

/-- Commit ids stay below the transaction ids. -/
theorem commitId_lt_of_commitsBelow {s : CatalogState E} {h : CatalogHistory E}
    (hh : ∀ c ∈ h.committed, c.commitId < transactionIdStart) (hops : Meets step CommitsBelow s ops)
    : ∀ c ∈ ((s.trace ops).foldl record h).committed, c.commitId < transactionIdStart := by
  induction ops generalizing s h with
  | nil => exact hh
  | cons op ops ih =>
    rw [trace, Theory.trace, foldl_append]
    refine ih ?_ hops.2
    cases op with
    | commit id =>
      rw [events]
      cases s.transactionManager.active? id with
      | none => exact hh
      | some t =>
        intro c hc
        rcases mem_append.1 hc with hc | hc
        · exact hh c hc
        · rw [mem_singleton.1 hc]
          exact hops.1 rfl
    | write id name write =>
      rw [events]
      cases s.transactionManager.active? id with
      | none => exact hh
      | some t =>
        have hkeep : ∀ (l : List (NamedVersion E)) (h : CatalogHistory E),
            ((l.map (CatalogEvent.write id)).foldl record h).committed =
              h.committed := by
          intro l
          induction l with
          | nil => intro h; rfl
          | cons v l ih => intro h; exact ih _
        rw [Option.elim_some, hkeep]
        exact hh
    | rollback id =>
      rw [events]
      cases s.transactionManager.active? id <;> exact hh
    | _ => exact hh

/-- What the theorems below say about runs that meet the condition: the invariant, and commit ids
below the transaction ids. -/
theorem invariant_of_commitsBelow (hops : Meets step CommitsBelow ({} : CatalogState E) ops) :
    (({} : CatalogState E).run ops).Invariant
        (ofTrace (({} : CatalogState E).trace ops)) ∧
      ∀ c ∈ (ofTrace (({} : CatalogState E).trace ops)).committed,
        c.commitId < transactionIdStart :=
  ⟨invariant_initial.run ops, commitId_lt_of_commitsBelow (by simp) hops⟩

/-- **Version chains** of names, after any run, are linked in both directions and match the undo
buffers, with one writer at most. -/
theorem linked_run (ops : List (CatalogOp E)) (name : String) :
    let s := ({} : CatalogState E).run ops
    let active := s.transactionManager.activeTransactions
    Linked (s.set.data name) ∧ links (s.set.data name) =
        undoLinks active s.transactionManager.recentlyCommittedTransactions name ∧
      active.Pairwise fun t u => t.entriesOn name = [] ∨ u.entriesOn name = [] := by
  have h := (invariant_initial.run ops).names name
  exact ⟨h.linked, h.links, h.exclusive⟩

/-- **Catalog snapshots.**  In a run whose commit ids stay below the transaction ids, `GetEntry`
gives a transaction the version it wrote last itself, otherwise the one committed last before it
started; and a rollback leaves `GetEntry` as it is for every other transaction. -/
theorem getEntry_eq_snapshot (ops : List (CatalogOp E))
    (hops : Meets step CommitsBelow ({} : CatalogState E) ops) :
    let s := ({} : CatalogState E).run ops
    let h := ofTrace (({} : CatalogState E).trace ops)
    ∀ t ∈ s.transactionManager.activeTransactions, ∀ name,
      s.set.getEntry t name = h.snapshot t.transactionId t.startTime name ∧
        ∀ id, id ≠ t.transactionId →
          (s.step (.rollback id)).set.getEntry t name = s.set.getEntry t name := by
  intro s h t ht name
  obtain ⟨hs, hbelow⟩ := invariant_of_commitsBelow hops
  refine ⟨hs.getEntry_eq hbelow ht name, fun id hid => ?_⟩
  cases hactive : s.transactionManager.active? id with
  | none => rw [step, withActive, hactive]
  | some u =>
    obtain ⟨hu, rfl⟩ := hs.managed.active?_eq_some_iff.1 hactive
    -- the history of `t` is the same before and after
    have hafter := hs.rollback hu
    have hmem : t ∈ (s.rollbackTransaction u).transactionManager.activeTransactions :=
      mem_filter.2 ⟨ht, decide_eq_true (Ne.symm hid)⟩
    have hpending : (h.record (.rollback u.transactionId)).pending t.transactionId =
        h.pending t.transactionId := Function.update_of_ne (Ne.symm hid) _ _
    rw [step, withActive, hactive]
    simp only
    rw [hafter.getEntry_eq hbelow hmem name, hs.getEntry_eq hbelow ht name, snapshot, hpending]
    rfl

/-- An entry is created and committed; of two other transactions one starts before the commit and
one after it. -/
def overlappingCreate : List (CatalogOp ℕ) :=
  [.startTransaction, .write transactionIdStart "t" (.create 7), .startTransaction,
    .commit transactionIdStart, .startTransaction]

theorem getEntry_overlappingCreate :
    let s := ({} : CatalogState ℕ).run overlappingCreate
    let early : Transaction EntryPointer :=
      { startTime := 1, transactionId := transactionIdStart + 1 }
    let late : Transaction EntryPointer :=
      { startTime := 3, transactionId := transactionIdStart + 2 }
    s.set.getEntry early "t" = none ∧ s.set.getEntry late "t" = some 7 := by
  intro s early late
  have h := getEntry_eq_snapshot overlappingCreate (by decide)
  exact ⟨(h early (by decide) "t").1.trans (by decide), (h late (by decide) "t").1.trans (by decide)⟩

/-! ### Running out of commit ids -/

/-- The newest version of the name was committed after the transaction started. -/
def newestCommittedAfter (t : Transaction EntryPointer) (name : String)
    (set : CatalogSet E) : Bool :=
  (set.data name).head?.any fun v =>
    decide (t.startTime < v.timestamp) && decide (v.timestamp < transactionIdStart)

/-- No transaction changes a name whose newest version was committed after it started. -/
def WritesCurrent (s : CatalogState E) : CatalogOp E → Prop
  | .write id name _ =>
    (s.transactionManager.active? id).all fun t => !newestCommittedAfter t name s.set
  | _ => True

/-- Transactions that start and roll back at once, while the first one is running. -/
def idle (n : ℕ) : List (CatalogOp E) :=
  (List.range n).flatMap fun i => [.startTransaction, .rollback (transactionIdStart + 1 + i)]

theorem idle_succ (n : ℕ) : (idle (n + 1) : List (CatalogOp E)) =
    idle n ++ [.startTransaction, .rollback (transactionIdStart + 1 + n)] := by
  simp [idle, range_succ]

theorem run_append (s : CatalogState E) (ops ops' : List (CatalogOp E)) :
    s.run (ops ++ ops') = (s.run ops).run ops' :=
  foldl_append

theorem trace_append (s : CatalogState E) (ops ops' : List (CatalogOp E)) :
    s.trace (ops ++ ops') = s.trace ops ++ (s.run ops).trace ops' :=
  Theory.trace_append _ _ s ops ops'

/-- Idle transactions leave the set as it is and the history empty. -/
theorem run_trace_idle (set : CatalogSet E) (n : ℕ) (hn : n < transactionIdStart) :
    run ⟨afterIdle 0, set⟩ (idle n) = ⟨afterIdle n, set⟩ ∧
      (trace ⟨afterIdle 0, set⟩ (idle n)).foldl record {} = {} := by
  induction n with
  | zero => exact ⟨rfl, rfl⟩
  | succ n ih =>
    have hlt : ¬transactionIdStart ≤ n + 1 := by omega
    have hne : transactionIdStart + 1 + n ≠ transactionIdStart := by omega
    obtain ⟨hrun, htrace⟩ := ih (by omega)
    rw [idle_succ, run_append, trace_append, foldl_append, hrun, htrace]
    constructor
    · simp [run, step, afterIdle, startTransaction, hlt, withActive, active?, hne.symm,
        rollbackTransaction, removeTransaction, TransactionManager.removeTransaction, cleanable,
        recentlyCommitted, awaitingGC, others, Transaction.clearUndo, Transaction.rollbackEntries,
        lowestActiveQuery, maximumQueryId]
      rfl
    · simp [trace, Theory.trace, events, step, afterIdle, startTransaction, hlt, active?, hne.symm,
        record]

theorem run_start_idle {n : ℕ} (hn : n < transactionIdStart) (ops : List (CatalogOp E)) :
    run {} (.startTransaction :: (idle n ++ ops)) = run ⟨afterIdle n, {}⟩ ops ∧
      ofTrace (trace {} (.startTransaction :: (idle n ++ ops))) =
        ofTrace (trace ⟨afterIdle n, {}⟩ ops) ∧
      (Meets step WritesCurrent ⟨afterIdle n, {}⟩ ops →
        Meets step WritesCurrent {} (.startTransaction :: (idle n ++ ops))) := by
  obtain ⟨hidle, htrace⟩ := run_trace_idle ({} : CatalogSet E) n hn
  have hstart : ({} : CatalogState E).run [.startTransaction] = ⟨afterIdle 0, {}⟩ := rfl
  have hops : (.startTransaction :: (idle n ++ ops) : List (CatalogOp E)) =
      [.startTransaction] ++ (idle n ++ ops) := rfl
  rw [hops]
  refine ⟨?_, ?_, fun hmeets => ?_⟩
  · rw [run_append, run_append, hstart, hidle]
  · have hfirst : (({} : CatalogState E).trace [.startTransaction]).foldl
        record {} = ({} : CatalogHistory E) := rfl
    rw [trace_append, trace_append, hstart, hidle, ofTrace, foldl_append,
      hfirst, foldl_append, htrace, ofTrace]
  · refine meets_append.2 ⟨⟨trivial, trivial⟩, meets_append.2 ⟨?_, ?_⟩⟩
    · refine meets_of_forall fun op hop s => ?_
      simp only [idle, mem_flatMap, mem_cons, not_mem_nil, or_false] at hop
      obtain ⟨i, -, rfl | rfl⟩ := hop <;> trivial
    · have hstate : (idle n).foldl step (([.startTransaction] : List (CatalogOp E)).foldl step {}) =
          ⟨afterIdle n, {}⟩ := hidle
      rw [hstate]
      exact hmeets

/-- The last operations of the run below. -/
def lastCreate : List (CatalogOp ℕ) :=
  [.startTransaction, .write (transactionIdStart + 4294967295) "t" (.create 7),
    .commit (transactionIdStart + 4294967295)]

/-- The run that uses up all ids below those of the transactions. -/
def exhausted : List (CatalogOp ℕ) :=
  .startTransaction :: (idle 4294967294 ++ lastCreate)

/-- **A commit id can reach the id of a running transaction.**  The transaction then sees an entry
that was created and committed long after it started. -/
theorem commitId_reaches_transactionId :
    let s := ({} : CatalogState ℕ).run exhausted
    let h := ofTrace (({} : CatalogState ℕ).trace exhausted)
    Meets step WritesCurrent ({} : CatalogState ℕ) exhausted ∧
      ∃ t ∈ s.transactionManager.activeTransactions,
        s.set.getEntry t "t" = some 7 ∧ h.snapshot t.transactionId t.startTime "t" = none := by
  intro s h
  obtain ⟨hs, hh, hmeets⟩ := run_start_idle (n := 4294967294) (by decide) lastCreate
  rw [← exhausted] at hs hh hmeets
  refine ⟨hmeets ⟨trivial, ?_, trivial, trivial⟩,
    { startTime := 0, transactionId := transactionIdStart }, ?_, ?_, ?_⟩
  · simp [WritesCurrent, newestCommittedAfter, step, afterIdle]
  · rw [show s = _ from hs]
    decide
  · rw [show s = _ from hs]
    decide
  · rw [show h = _ from hh]
    decide

/-! ### The version that a transaction acts on -/

/-- The versions from the one on that the transaction sees. -/
def seen (t : Transaction EntryPointer) : List (CatalogVersion E) → List (CatalogVersion E)
  | [] => []
  | [v] => [v]
  | v :: w :: older => if t.sees v.timestamp then v :: w :: older else seen t (w :: older)

/-- The catalog set as if the version that the transaction sees were the newest one. -/
def seenBy (t : Transaction EntryPointer) (name : String) (set : CatalogSet E) : CatalogSet E :=
  { set with data := Function.update set.data name (seen t (set.data name)) }

/-- **The write rule**: every operation on the name raises a conflict, or it gives the same result
and saves the same version in the undo buffer as if the version that `GetEntry` returns were the
newest one. -/
def ActsOnVisible (t : Transaction EntryPointer) (name : String) (set : CatalogSet E) : Prop :=
  ∀ write : CatalogWrite E,
    (∃ operation, (write.apply name t set).2 = .error (conflict operation name)) ∨
      (write.apply name t set).2 = (write.apply name t (seenBy t name set)).2 ∧
        (write.apply name t set).1.1 = (write.apply name t (seenBy t name set)).1.1

/-- An operation that succeeds replaces a version of the transaction itself, or all versions of the
name were committed before it started. -/
def ReplacesNoNewer (h : CatalogHistory E) (t : Transaction EntryPointer) (name : String)
    (set : CatalogSet E) : Prop :=
  ∀ write : CatalogWrite E, (write.apply name t set).2 = .ok true →
    versionsOf name (h.pending t.transactionId) ≠ [] ∨
      ∀ c ∈ h.committed, versionsOf name c.versions ≠ [] → c.commitId < t.startTime

variable {t : Transaction EntryPointer} {set : CatalogSet E}

theorem seenBy_eq_self (h : seen t (set.data name) = set.data name) : seenBy t name set = set := by
  rw [seenBy, h, Function.update_eq_self]

theorem apply_of_conflicts (hdata : set.data name = v :: older) (hconf : v.conflicts t = true)
    (write : CatalogWrite E) :
    ∃ operation, (write.apply name t set).2 = .error (conflict operation name) := by
  cases write with
  | create value =>
    exact ⟨"create", by simp [apply, createEntry, hdata, hconf]⟩
  | alter info =>
    exact ⟨"alter", by simp [apply, alterEntry, hdata, hconf]⟩
  | drop dependents =>
    exact ⟨"drop", by simp [apply, dropEntry, hdata, hconf]⟩

theorem exists_push [Inhabited E] (hdata : set.data name = v :: older)
    (hconf : v.conflicts t = false) :
    ∃ (write : CatalogWrite E) (value : Option E), write.apply name t set =
      (push t name value v older set, .ok true) := by
  cases hvalue : v.value with
  | none =>
    exact ⟨.create default, some default,
      by simp [apply, createEntry, hdata, hconf, hvalue]⟩
  | some e =>
    exact ⟨.drop fun _ => none, none, by simp [apply, dropEntry, hdata, hconf, hvalue]⟩

namespace Invariant

variable {s : CatalogState E} {h : CatalogHistory E} {t : Transaction EntryPointer} {name : String}
  {v : CatalogVersion E} {older : List (CatalogVersion E)}

section

variable (hs : s.Invariant h)

include hs

/-- The newest version is a dummy node that is alone, or the newest one of the history. -/
theorem newest_cases (hdata : s.set.data name = v :: older) : (v.timestamp = 0 ∧ older = [] ∧
        h.versions s.transactionManager.activeTransactions name = []) ∨
      ∃ rest, h.versions s.transactionManager.activeTransactions name = v.key :: rest := by
  have hvalues := (hs.names name).values
  rw [hdata] at hvalues
  cases hall : h.versions s.transactionManager.activeTransactions name with
  | nil =>
    rw [hall, nil_append] at hvalues
    obtain ⟨rest, hrest⟩ := hvalues
    simp only [map_cons, cons_append, List.cons.injEq, append_eq_nil_iff, map_eq_nil_iff] at hrest
    exact .inl ⟨congrArg Prod.fst hrest.1, hrest.2.1, rfl⟩
  | cons x rest =>
    rw [hall, map_cons, cons_append, cons_prefix_cons] at hvalues
    exact .inr ⟨rest, by rw [hvalues.1]⟩

/-- A number in the history is an id, or a commit id that is not the start time of `t`. -/
theorem number_cases (ht : t ∈ s.transactionManager.activeTransactions) {x : ℕ × Option E}
    (hx : x ∈ h.versions s.transactionManager.activeTransactions name) :
    transactionIdStart ≤ x.1 ∨ x.1 ≠ t.startTime := by
  rcases mem_append.1 hx with hx | hx
  · obtain ⟨u, hu, hnumber, -⟩ := mem_blocks.1 hx
    rw [hnumber]
    exact .inl (hs.managed.le_id hu)
  · obtain ⟨c, hc, hnumber, -⟩ := mem_blocks.1 hx
    rw [hnumber]
    exact .inr ((hs.committed c (mem_reverse.1 hc)).2 t ht)

/-- A version that was not committed after the transaction started is the one it sees, or it is a
conflict. -/
theorem seen_or_conflicts (ht : t ∈ s.transactionManager.activeTransactions)
    (hdata : s.set.data name = v :: older) (hnewest : newestCommittedAfter t name s.set = false) :
    seen t (v :: older) = v :: older ∨ v.conflicts t = true := by
  have hsees : t.sees v.timestamp = true → seen t (v :: older) = v :: older := by
    intro hv
    cases older with
    | nil => rfl
    | cons w older => rw [seen, if_pos hv]
  simp only [newestCommittedAfter, hdata, head?_cons, Option.any_some,
    Bool.and_eq_false_imp, decide_eq_true_eq, decide_eq_false_iff_not, not_lt] at hnewest
  by_cases hlt : v.timestamp < transactionIdStart
  · left
    have hle : v.timestamp ≤ t.startTime := by
      by_contra hgt
      exact absurd (hnewest (by omega)) (by omega)
    by_cases heq : v.timestamp = t.startTime
    · -- only the dummy node can have the start time of a transaction
      obtain ⟨-, rfl, -⟩ | ⟨rest, hrest⟩ := hs.newest_cases hdata
      · rfl
      · have hnumber := hs.number_cases ht (hrest ▸ mem_cons_self)
        exact absurd (hnumber.resolve_right (by simpa [key] using heq)) (by simpa [key] using hlt)
    · refine hsees ?_
      simp only [Transaction.sees, Bool.or_eq_true, decide_eq_true_eq]
      exact .inr (by omega)
  · by_cases hown : v.timestamp = t.transactionId
    · refine .inl (hsees ?_)
      simp [Transaction.sees, hown]
    · right
      simp only [conflicts, Bool.and_eq_true, decide_eq_true_eq, bne_iff_ne]
      exact ⟨by omega, hown⟩

/-- The numbers of the committed versions of a name decrease. -/
theorem blocks_pairwise (name : String) :
    (blocks (·.commitId) (fun c => versionsOf name c.versions) h.committed.reverse).Pairwise
      fun x y => y.1 ≤ x.1 := by
  have hsorted : h.committed.reverse.Pairwise fun c d => d.commitId < c.commitId :=
    pairwise_reverse.2 hs.sorted
  revert hsorted
  induction h.committed.reverse with
  | nil => exact fun _ => List.Pairwise.nil
  | cons c l ih =>
    intro hsorted
    obtain ⟨hc, hl⟩ := pairwise_cons.1 hsorted
    rw [blocks_cons]
    refine pairwise_append.2 ⟨?_, ih hl, fun x hx y hy => ?_⟩
    · exact pairwise_map.2 (pairwise_of_forall fun _ _ => le_refl _)
    · obtain ⟨w, -, rfl⟩ := mem_map.1 hx
      obtain ⟨d, hd, hnumber, -⟩ := mem_blocks.1 hy
      rw [hnumber]
      exact (hc d hd).le

theorem replacesNoNewer (hbelow : ∀ c ∈ h.committed, c.commitId < transactionIdStart)
    (ht : t ∈ s.transactionManager.activeTransactions)
    (hnewest : newestCommittedAfter t name s.set = false) : ReplacesNoNewer h t name s.set := by
  intro write hwrite
  by_cases hown : versionsOf name (h.pending t.transactionId) = []
  swap
  · exact .inl hown
  right
  intro c hc hne
  obtain ⟨before, after, hsplit, -, hids⟩ := hs.managed.split ht
  have hn := hs.names name
  -- the newest version of the committed transaction is in the history
  obtain ⟨value, hvalue⟩ := exists_mem_of_ne_nil _ hne
  have hmem : (c.commitId, value) ∈
      blocks (·.commitId) (fun c => versionsOf name c.versions) h.committed.reverse :=
    mem_blocks.2 ⟨c, mem_reverse.2 hc, rfl, hvalue⟩
  have hmem' : (c.commitId, value) ∈ h.versions s.transactionManager.activeTransactions name :=
    mem_append_right _ hmem
  cases hdata : s.set.data name with
  | nil =>
    rw [hn.unknown hdata] at hmem'
    simp at hmem'
  | cons v older =>
    have hknown : s.set.known name = s.set := known_of_ne_nil (by simp [hdata])
    obtain ⟨-, hkept⟩ | ⟨current, older', value', hdata', hconf, -⟩ :=
      write.apply_cases name t s.set
    · exact absurd hwrite hkept
    rw [hknown, hdata, List.cons.injEq] at hdata'
    obtain ⟨rfl, rfl⟩ := hdata'
    rw [hsplit, hdata] at hn
    have hge : ∀ u ∈ before ++ after, transactionIdStart ≤ u.transactionId := by
      intro u hu
      refine hs.managed.le_id ?_
      rw [hsplit]
      simp only [mem_append, mem_cons] at hu ⊢
      tauto
    have hothers := hn.others_eq_nil hids hge hconf
    -- no active transaction has written the name, so the newest version is a committed one
    have hactive : blocks (·.transactionId) (fun u => versionsOf name (h.pending u.transactionId))
        s.transactionManager.activeTransactions = [] := by
      refine blocks_eq_nil fun u hu => ?_
      rw [hsplit] at hu
      by_cases hut : u = t
      · rw [hut]
        exact hown
      · refine (hn.ownValues_eq_nil_iff hu).2 (hothers u ?_)
        simp only [mem_append, mem_cons] at hu ⊢
        tauto
    obtain ⟨-, -, hnil⟩ | ⟨rest, hrest⟩ := hs.newest_cases hdata
    · rw [hnil] at hmem'
      simp at hmem'
    rw [versions, hactive, nil_append] at hrest
    have hsorted := hs.blocks_pairwise name
    rw [hrest] at hmem hsorted
    have hle : c.commitId ≤ v.timestamp := by
      rcases mem_cons.1 hmem with heq | hmem
      · exact (congrArg Prod.fst heq).le
      · exact (pairwise_cons.1 hsorted).1 _ hmem
    obtain ⟨d, hd, hnumber, -⟩ := mem_blocks.1 (hrest ▸ mem_cons_self)
    have hv : v.timestamp = d.commitId := hnumber
    have hlt := hbelow d (mem_reverse.1 hd)
    have hstart := (hs.committed d (mem_reverse.1 hd)).2 t ht
    simp only [newestCommittedAfter, hdata, head?_cons, Option.any_some,
      Bool.and_eq_false_imp, decide_eq_true_eq, decide_eq_false_iff_not, not_lt] at hnewest
    by_contra hge
    exact absurd (hnewest (by omega)) (by omega)

/-- A version that was committed after the transaction started can be replaced by it. -/
theorem not_replacesNoNewer [Inhabited E] (ht : t ∈ s.transactionManager.activeTransactions)
    (hnewest : newestCommittedAfter t name s.set = true) : ¬ReplacesNoNewer h t name s.set := by
  intro hreplaces
  cases hdata : s.set.data name with
  | nil => simp [newestCommittedAfter, hdata] at hnewest
  | cons v older =>
    simp only [newestCommittedAfter, hdata, head?_cons, Option.any_some, Bool.and_eq_true,
      decide_eq_true_eq] at hnewest
    obtain ⟨hstart, hlt⟩ := hnewest
    obtain ⟨hzero, -, -⟩ | ⟨rest, hrest⟩ := hs.newest_cases hdata
    · omega
    have hnot : v.conflicts t = false := by
      simp only [conflicts, Bool.and_eq_false_imp, decide_eq_true_eq]
      omega
    obtain ⟨write, value, hwrite⟩ := exists_push hdata hnot
    -- the newest version is not in the block of an active transaction
    have hactive : blocks (·.transactionId) (fun u => versionsOf name (h.pending u.transactionId))
        s.transactionManager.activeTransactions = [] := by
      cases hblocks : blocks (·.transactionId)
          (fun u => versionsOf name (h.pending u.transactionId))
          s.transactionManager.activeTransactions with
      | nil => rfl
      | cons x l =>
        rw [versions, hblocks, cons_append, List.cons.injEq] at hrest
        obtain ⟨u, hu, hnumber, -⟩ := mem_blocks.1 (hblocks ▸ mem_cons_self)
        have hid := hs.managed.le_id hu
        rw [← hnumber, hrest.1] at hid
        exact absurd hid (Nat.not_le.2 hlt)
    rcases hreplaces write (by rw [hwrite]) with hown | hbefore
    · obtain ⟨w, hw⟩ := exists_mem_of_ne_nil _ hown
      have hmem : (t.transactionId, w) ∈ blocks (·.transactionId)
          (fun u => versionsOf name (h.pending u.transactionId))
          s.transactionManager.activeTransactions := mem_blocks.2 ⟨t, ht, rfl, hw⟩
      rw [hactive] at hmem
      simp at hmem
    · rw [versions, hactive, nil_append] at hrest
      obtain ⟨d, hd, hnumber, hvalue⟩ := mem_blocks.1 (hrest ▸ mem_cons_self)
      have hv : v.timestamp = d.commitId := hnumber
      have hd := hbefore d (mem_reverse.1 hd) (ne_nil_of_mem hvalue)
      omega

end

end Invariant

/-- **The write rule of the catalog.**  In every state that a run reaches, a transaction acts on
the version that it sees, or gets a conflict, and replaces no version that was committed after it
started, exactly if the newest version of the name was not committed after it started: the three
operations look only for a newest version that is uncommitted. -/
theorem actsOnVisible_iff [Inhabited E] (ops : List (CatalogOp E))
    (hops : Meets step CommitsBelow ({} : CatalogState E) ops) :
    let s := ({} : CatalogState E).run ops
    let h := ofTrace (({} : CatalogState E).trace ops)
    ∀ t ∈ s.transactionManager.activeTransactions, ∀ name,
      (ActsOnVisible t name s.set ∧ ReplacesNoNewer h t name s.set) ↔
        newestCommittedAfter t name s.set = false := by
  intro s h t ht name
  obtain ⟨hs, hbelow⟩ := invariant_of_commitsBelow hops
  constructor
  · rintro ⟨-, hreplaces⟩
    cases hnewest : newestCommittedAfter t name s.set with
    | false => rfl
    | true => exact absurd hreplaces (hs.not_replacesNoNewer ht hnewest)
  · intro hnewest
    refine ⟨fun write => ?_, hs.replacesNoNewer hbelow ht hnewest⟩
    have hself : seen t (s.set.data name) = s.set.data name →
        (write.apply name t s.set).2 = (write.apply name t (seenBy t name s.set)).2 ∧
          (write.apply name t s.set).1.1 = (write.apply name t (seenBy t name s.set)).1.1 := by
      intro hseen
      rw [seenBy_eq_self hseen]
      exact ⟨rfl, rfl⟩
    cases hdata : s.set.data name with
    | nil =>
      refine .inr (hself ?_)
      rw [hdata]
      rfl
    | cons v older =>
      rcases hs.seen_or_conflicts ht hdata hnewest with hseen | hconf
      · refine .inr (hself ?_)
        rw [hdata]
        exact hseen
      · exact .inl (apply_of_conflicts hdata hconf write)

/-- The transaction that started after the commit acts on what it sees, the one that started before
it does not. -/
theorem actsOnVisible_overlappingCreate :
    let s := ({} : CatalogState ℕ).run overlappingCreate
    let late : Transaction EntryPointer :=
      { startTime := 3, transactionId := transactionIdStart + 2 }
    ActsOnVisible late "t" s.set := by
  intro s late
  exact ((actsOnVisible_iff overlappingCreate (by decide) late (by decide) "t").2 (by decide)).1

/-- **A transaction can drop an entry that it does not see.**  The entry was created and committed
after the transaction started; no conflict is raised. -/
theorem drop_of_unseen :
    let s := ({} : CatalogState ℕ).run overlappingCreate
    let early : Transaction EntryPointer :=
      { startTime := 1, transactionId := transactionIdStart + 1 }
    early ∈ s.transactionManager.activeTransactions ∧ s.set.getEntry early "t" = none ∧
      (s.set.dropEntry "t" (fun _ => none) early).2 = .ok true ∧
      ¬ActsOnVisible early "t" s.set := by
  intro s early
  refine ⟨by decide, by decide, rfl, fun hacts => ?_⟩
  rcases hacts (.drop fun _ => none) with ⟨operation, hconflict⟩ | ⟨hresult, -⟩
  · cases hconflict
  · cases hresult

end CatalogState

end DuckDB
