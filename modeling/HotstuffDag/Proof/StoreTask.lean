import HotstuffDag.StoreTask
import Mathlib.Data.List.Induction

/-! # What the task of the store answers

A reference semantics that looks at the sequence of commands only, and the run of the task, which
agrees with it. -/

namespace HotstuffDag.StoreTask
open Library

variable {db : Map (List UInt8) (List UInt8)} {key : List UInt8} {commands before after : List StoreCommand}
  {command : StoreCommand} {task : StoreTask} {i : Nat}

/-- The value a command writes to the key. -/
def written (key : List UInt8) : StoreCommand → Option (List UInt8)
  | .write k value => if k = key then some value else none
  | _ => none

/-- The value last written to the key, or else the one the database began with. -/
def lastWritten (db : Map (List UInt8) (List UInt8)) (key : List UInt8) (commands : List StoreCommand) :
    Option (List UInt8) :=
  (commands.reverse.findSome? (written key)).or (db.get? key)

def firstWritten (key : List UInt8) (commands : List StoreCommand) : Option (List UInt8) :=
  commands.findSome? (written key)

/-- What the command at the given place is to be answered. -/
def answer (db : Map (List UInt8) (List UInt8)) (commands : List StoreCommand) (i : Nat) : Option StoreReply :=
  match commands[i]? with
  | some (.read key) => some (.read (lastWritten db key (commands.take i)))
  | some (.notifyRead key) =>
      ((lastWritten db key (commands.take i)).or (firstWritten key (commands.drop (i + 1)))).map .notified
  | _ => none

/-! ## One more command -/

theorem lastWritten_concat : lastWritten db key (commands ++ [command]) =
    (written key command).or (lastWritten db key commands) := by
  unfold lastWritten
  cases h : written key command <;> simp [h]

theorem firstWritten_concat : firstWritten key (commands ++ [command]) =
    (firstWritten key commands).or (written key command) := by
  unfold firstWritten
  cases h : written key command <;> simp [h]

/-- What a waiting sender is answered by a command. -/
def woken (command : StoreCommand) : Option StoreCommand → Option StoreReply
  | some (.notifyRead key) => (written key command).map .notified
  | _ => none

theorem answer_concat_old (h : i < commands.length) :
    answer db (commands ++ [command]) i = (answer db commands i).or (woken command commands[i]?) := by
  unfold answer
  rw [List.getElem?_append_left h, List.take_append_of_le_length (Nat.le_of_lt h),
    List.drop_append_of_le_length h, List.getElem?_eq_getElem h]
  cases commands[i] with
  | write k value => rfl
  | read k => rfl
  | notifyRead k =>
      simp only [woken, firstWritten_concat]
      cases lastWritten db k (commands.take i) <;> cases firstWritten k (commands.drop (i + 1)) <;> rfl

theorem answer_concat_write_new (value : List UInt8) :
    answer db (commands ++ [.write key value]) commands.length = none := by
  simp [answer]

theorem answer_concat_read_new :
    answer db (commands ++ [.read key]) commands.length = some (.read (lastWritten db key commands)) := by
  simp [answer]

theorem answer_concat_notifyRead_new :
    answer db (commands ++ [.notifyRead key]) commands.length = (lastWritten db key commands).map .notified := by
  simp [answer, firstWritten]

theorem answer_beyond (h : commands.length ≤ i) : answer db commands i = none := by
  unfold answer
  rw [List.getElem?_eq_none h]

/-! ## The run -/

/-- The sender at the given place waits for the key. -/
def Waits (db : Map (List UInt8) (List UInt8)) (commands : List StoreCommand) (key : List UInt8) (i : Nat) : Prop :=
  commands[i]? = some (.notifyRead key) ∧ answer db commands i = none

structure Agrees (db : Map (List UInt8) (List UInt8)) (commands : List StoreCommand) (task : StoreTask) : Prop where
  received : task.received = commands.length
  stored : ∀ key, task.db.get? key = lastWritten db key commands
  replied : ∀ i, task.repliesTo i = (answer db commands i).toList
  waiting : ∀ key i, i ∈ task.obligations.getD key [] ↔ Waits db commands key i
  distinct : ∀ key, (task.obligations.getD key []).Nodup
  absent : ∀ key, task.db.contains key = true → task.obligations.get? key = none

theorem agrees_new : Agrees db [] (new db) where
  received := rfl
  stored := by simp [new, lastWritten]
  replied := by simp [new, repliesTo, answer]
  waiting := by simp [new, Map.getD, Waits]
  distinct := by simp [new, Map.getD]
  absent := by simp [new]

theorem repliesTo_append (task : StoreTask) (more : List (Nat × StoreReply)) :
    { task with sent := task.sent ++ more }.repliesTo i =
      task.repliesTo i ++ more.filterMap fun (name, reply) => if name = i then some reply else none := by
  simp [repliesTo]

/-- Each of several distinct senders is sent one reply. -/
theorem replies_of_nodup {senders : List Nat} (distinct : senders.Nodup) (reply : StoreReply) :
    ((senders.map fun sender => (sender, reply)).filterMap fun (name, reply) => if name = i then some reply else none) =
      if i ∈ senders then [reply] else [] := by
  induction senders with
  | nil => rfl
  | cons sender rest ih =>
      obtain ⟨fresh, distinct⟩ := List.nodup_cons.mp distinct
      rw [List.map_cons, List.filterMap_cons, ih distinct]
      by_cases same : sender = i
      · subst same
        simp [fresh]
      · simp [same, Ne.symm same]

theorem Waits.lt (h : Waits db commands key i) : i < commands.length :=
  (List.getElem?_eq_some_iff.mp h.1).1

/-- A command wakes the senders that wait for the key it writes, and a `NotifyRead` may begin to wait. -/
theorem waits_concat : Waits db (commands ++ [command]) key i ↔
    Waits db commands key i ∧ written key command = none ∨
      i = commands.length ∧ command = .notifyRead key ∧ lastWritten db key commands = none := by
  rcases Nat.lt_trichotomy i commands.length with old | rfl | beyond
  · unfold Waits
    rw [List.getElem?_append_left old, answer_concat_old old]
    constructor
    · rintro ⟨place, unanswered⟩
      rw [place, Option.or_eq_none_iff] at unanswered
      exact .inl ⟨⟨place, unanswered.1⟩, Option.map_eq_none_iff.mp unanswered.2⟩
    · rintro (⟨⟨place, unanswered⟩, asleep⟩ | ⟨rfl, -, -⟩)
      · rw [place, unanswered]
        simp [woken, asleep]
      · exact absurd old (Nat.lt_irrefl _)
  · unfold Waits
    rw [List.getElem?_concat_length]
    constructor
    · rintro ⟨place, unanswered⟩
      obtain rfl := Option.some.inj place
      rw [answer_concat_notifyRead_new] at unanswered
      exact .inr ⟨rfl, rfl, Option.map_eq_none_iff.mp unanswered⟩
    · rintro (⟨⟨place, -⟩, -⟩ | ⟨-, rfl, unwritten⟩)
      · exact absurd (List.getElem?_eq_some_iff.mp place).1 (Nat.lt_irrefl _)
      · rw [answer_concat_notifyRead_new, unwritten]
        exact ⟨rfl, rfl⟩
  · constructor
    · intro waits
      have := waits.lt
      simp only [List.length_append, List.length_singleton] at this
      omega
    · rintro (⟨waits, -⟩ | ⟨rfl, -⟩)
      · exact absurd waits.lt (by omega)
      · exact absurd beyond (Nat.lt_irrefl _)

theorem woken_eq_none (h : ∀ key, written key command = none) (waiting : Option StoreCommand) :
    woken command waiting = none := by
  rcases waiting with _ | (_ | _ | _) <;> simp [woken, h]

/-- A command that writes nothing is the only one it may be an answer for. -/
theorem answer_concat_quiet (h : ∀ key, written key command = none) (other : i ≠ commands.length) :
    answer db (commands ++ [command]) i = answer db commands i := by
  rcases Nat.lt_or_gt_of_ne other with old | beyond
  · rw [answer_concat_old old, woken_eq_none h, Option.or_none]
  · rw [answer_beyond (by rw [List.length_append]; exact beyond), answer_beyond (Nat.le_of_lt beyond)]

/-- A write answers the senders that wait for its key. -/
theorem answer_concat_write {value : List UInt8} {senders : List Nat} (waiting : ∀ i, i ∈ senders ↔ Waits db commands key i) :
    (answer db (commands ++ [.write key value]) i).toList =
      (answer db commands i).toList ++ if i ∈ senders then [.notified value] else [] := by
  by_cases waits : i ∈ senders
  · obtain ⟨place, unanswered⟩ := (waiting i).mp waits
    rw [if_pos waits, answer_concat_old ((waiting i).mp waits).lt, place, unanswered]
    simp [woken, written]
  · rw [if_neg waits, List.append_nil]
    congr 1
    rcases Nat.lt_trichotomy i commands.length with old | rfl | beyond
    · rw [answer_concat_old old]
      cases unanswered : answer db commands i with
      | some reply => rfl
      | none =>
          rw [Option.none_or]
          match place : commands[i]? with
          | some (.notifyRead other) =>
              have differ : key ≠ other := fun same => waits ((waiting i).mpr ⟨same ▸ place, unanswered⟩)
              simp [woken, written, differ]
          | some (.read _) | some (.write _ _) | none => rfl
    · rw [answer_concat_write_new, answer_beyond (Nat.le_refl _)]
    · rw [answer_beyond (by rw [List.length_append]; exact beyond), answer_beyond (Nat.le_of_lt beyond)]

/-! ## Steps -/

theorem write_db (key value : List UInt8) : (task.write key value).db = task.db.insert key value := by
  unfold write
  cases task.obligations.get? key <;> rfl

theorem write_obligations (key value other : List UInt8) :
    (task.write key value).obligations.get? other = if key = other then none else task.obligations.get? other := by
  unfold write
  cases found : task.obligations.get? key with
  | none =>
      by_cases same : key = other
      · simp [← same, found]
      · simp [same]
  | some senders => exact Map.get?_remove _ _ _

theorem repliesTo_write (key value : List UInt8) (distinct : (task.obligations.getD key []).Nodup) :
    (task.write key value).repliesTo i =
      task.repliesTo i ++ if i ∈ task.obligations.getD key [] then [.notified value] else [] := by
  unfold write
  rw [Map.getD] at distinct ⊢
  cases found : task.obligations.get? key with
  | none => simp [repliesTo]
  | some senders =>
      rw [found] at distinct
      exact (repliesTo_append task _).trans (congrArg _ (replies_of_nodup distinct _))

theorem Agrees.write (h : Agrees db commands task) (key value : List UInt8) :
    Agrees db (commands ++ [.write key value]) (task.step (.write key value)) := by
  have obligations (other : List UInt8) : (task.step (.write key value)).obligations.get? other =
      if key = other then none else task.obligations.get? other := write_obligations key value other
  have waiting (other : List UInt8) : (task.step (.write key value)).obligations.getD other [] =
      if key = other then [] else task.obligations.getD other [] := by
    rw [Map.getD, Map.getD, obligations]
    by_cases same : key = other <;> simp [same]
  have database (other : List UInt8) : (task.step (.write key value)).db.get? other =
      if key = other then some value else task.db.get? other :=
    (congrArg (Map.get? · other) (write_db key value)).trans (Map.get?_insert _ _ _ _)
  constructor
  · simp [step, h.received]
  · intro other
    rw [lastWritten_concat, ← h.stored, database]
    by_cases same : key = other <;> simp [written, same]
  · intro i
    rw [answer_concat_write (h.waiting key), ← h.replied]
    exact repliesTo_write key value (h.distinct key)
  · intro other i
    rw [waits_concat, ← h.waiting, waiting]
    by_cases same : key = other <;> simp [written, same]
  · intro other
    rw [waiting]
    by_cases same : key = other
    · simp [same]
    · simpa [same] using h.distinct other
  · intro other present
    rw [obligations]
    rw [Map.contains, database] at present
    by_cases same : key = other
    · exact if_pos same
    · rw [if_neg same] at present ⊢
      exact h.absent other present

theorem Agrees.read (h : Agrees db commands task) (key : List UInt8) :
    Agrees db (commands ++ [.read key]) (task.step (.read key)) := by
  have quiet : ∀ other, written other (.read key) = none := fun _ => rfl
  constructor
  · simp [step, handle, StoreTask.read, h.received]
  · intro other
    rw [lastWritten_concat, quiet, Option.none_or]
    exact h.stored other
  · intro i
    refine (repliesTo_append task _).trans ?_
    rw [h.replied, h.received]
    by_cases new : i = commands.length
    · subst new
      rw [answer_concat_read_new, answer_beyond (Nat.le_refl _), h.stored]
      simp
    · rw [answer_concat_quiet quiet new]
      simp [Ne.symm new]
  · intro other i
    rw [waits_concat, ← h.waiting]
    simp [quiet, step, handle, StoreTask.read]
  · exact h.distinct
  · exact h.absent

theorem Agrees.notifyRead (h : Agrees db commands task) (key : List UInt8) :
    Agrees db (commands ++ [.notifyRead key]) (task.step (.notifyRead key)) := by
  have quiet : ∀ other, written other (.notifyRead key) = none := fun _ => rfl
  have stored : ∀ other, task.db.get? other = lastWritten db other (commands ++ [.notifyRead key]) := by
    intro other
    rw [lastWritten_concat, quiet, Option.none_or]
    exact h.stored other
  cases found : task.db.get? key with
  | some value =>
      have unfolded : task.step (.notifyRead key) = { task with
          received := task.received + 1
          sent := task.sent ++ [(task.received, .notified value)] } := by
        simp [step, handle, StoreTask.notifyRead, found]
      rw [unfolded]
      refine ⟨by simp [h.received], stored, ?_, ?_, h.distinct, h.absent⟩
      · intro i
        refine (repliesTo_append task _).trans ?_
        rw [h.replied, h.received]
        by_cases new : i = commands.length
        · subst new
          rw [answer_concat_notifyRead_new, answer_beyond (Nat.le_refl _), ← h.stored, found]
          simp
        · rw [answer_concat_quiet quiet new]
          simp [Ne.symm new]
      · intro other i
        rw [waits_concat, ← h.waiting, ← h.stored]
        simp only [quiet, and_true, StoreCommand.notifyRead.injEq, iff_self_or, and_imp]
        rintro - rfl missing
        exact absurd (found.symm.trans missing) (by simp)
  | none =>
      have unfolded : task.step (.notifyRead key) = { task with
          received := task.received + 1
          obligations := task.obligations.insert key (task.obligations.getD key [] ++ [task.received]) } := by
        simp [step, handle, StoreTask.notifyRead, found]
      have waiting (other : List UInt8) : (task.step (.notifyRead key)).obligations.getD other [] =
          task.obligations.getD other [] ++ if key = other then [commands.length] else [] := by
        rw [unfolded, Map.getD, Map.get?_insert, h.received]
        by_cases same : key = other <;> simp [same, Map.getD]
      constructor
      · rw [unfolded, List.length_append]
        simp [h.received]
      · rw [unfolded]
        exact stored
      · intro i
        rw [unfolded]
        refine (h.replied i).trans ?_
        by_cases new : i = commands.length
        · subst new
          rw [answer_concat_notifyRead_new, answer_beyond (Nat.le_refl _), ← h.stored, found]
          rfl
        · rw [answer_concat_quiet quiet new]
      · intro other i
        rw [waits_concat, ← h.waiting, waiting, ← h.stored]
        by_cases same : key = other
        · subst same
          simp [quiet, found]
        · simp [quiet, same]
      · intro other
        rw [waiting]
        by_cases same : key = other
        · have fresh : commands.length ∉ task.obligations.getD other [] := fun waits =>
            absurd ((h.waiting other _).mp waits).lt (Nat.lt_irrefl _)
          rw [if_pos same]
          exact List.nodup_append.mpr ⟨h.distinct other, by simp, by
            intro i waits j new
            rw [List.mem_singleton.mp new]
            exact fun same => fresh (same ▸ waits)⟩
        · simpa [same] using h.distinct other
      · intro other present
        rw [unfolded] at present ⊢
        have differ : key ≠ other := by
          rintro rfl
          simp [Map.contains, found] at present
        exact (Map.get?_insert_ne _ _ differ).trans (h.absent other present)

theorem agrees_run (db : Map (List UInt8) (List UInt8)) (commands : List StoreCommand) : Agrees db commands (run db commands) := by
  induction commands using List.reverseRecOn with
  | nil => exact agrees_new
  | append_singleton commands command ih =>
      rw [run, List.foldl_concat]
      cases command with
      | write key value => exact ih.write key value
      | read key => exact ih.read key
      | notifyRead key => exact ih.notifyRead key

/-- A `Read` is answered with the value last written. A `NotifyRead` is answered once: with that
value if there is one, or else with the first value written after it, as soon as it is written. -/
theorem store_semantics (db : Map (List UInt8) (List UInt8)) :
    (∀ before key after, (run db (before ++ .read key :: after)).repliesTo before.length =
      [.read (lastWritten db key before)]) ∧
    (∀ before key after, (run db (before ++ .notifyRead key :: after)).repliesTo before.length =
      match lastWritten db key before, firstWritten key after with
      | some value, _ => [.notified value]
      | none, some value => [.notified value]
      | none, none => []) ∧
    ∀ commands key, (run db commands).db.contains key = true → (run db commands).obligations.get? key = none := by
  refine ⟨?_, ?_, fun commands => (agrees_run db commands).absent⟩
  · intro before key after
    rw [(agrees_run db _).replied, answer]
    simp
  · intro before key after
    rw [(agrees_run db _).replied, answer]
    cases found : lastWritten db key before <;> cases next : firstWritten key after <;> simp [found, next]

end HotstuffDag.StoreTask
