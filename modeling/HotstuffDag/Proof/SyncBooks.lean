import HotstuffDag.Proof.Rules
import HotstuffDag.SyncTask
import HotstuffDag.Sample

/-! # The three collections of the synchronizer

`waiting`, `pending` and `demands` are changed in different branches of the task. When a stored block
is filed under its own digest, every waiter is entered in the other two. -/

namespace HotstuffDag
open Library
variable [Crypto]

namespace SyncTask
variable {t : SyncTask} {B : Block} {w w' : SyncWaiter} {digest x : Digest} {block : Option Block}

/-- A digest has one waiter, which has entries in `pending` and `demands`. -/
structure Books (t : SyncTask) : Prop where
  covered : ∀ w ∈ t.waiting, t.pending.contains w.digest = true
  distinct : (t.waiting.map SyncWaiter.digest).Nodup
  demanded : ∀ w ∈ t.waiting, ∀ b, w.block = some b → ∃ ds, t.demands.get? b.digest = some ds ∧ w.digest ∈ ds

theorem books_new (name : PublicKey) (committee : Committee) (store : Store) (delay : Nat) :
    (new name committee store delay).Books := by
  constructor <;> simp [new]

theorem Books.inj (h : t.Books) (mem : w ∈ t.waiting) (mem' : w' ∈ t.waiting) (same : w.digest = w'.digest) : w = w' :=
  List.inj_on_of_nodup_map h.distinct mem mem' same

theorem Books.congr (h : t.Books) {t' : SyncTask} (waiting : t'.waiting = t.waiting) (pending : t'.pending = t.pending)
    (demands : t'.demands = t.demands) : t'.Books := by
  obtain ⟨covered, distinct, demanded⟩ := h
  constructor
  · rwa [waiting, pending]
  · rwa [waiting]
  · rwa [waiting, demands]

/-! ## A new waiter -/

omit [Crypto] in
theorem get?_demand (demands : Map Digest (HashSet Digest)) (block digest x : Digest) :
    (demand demands block digest).get? x =
      if block = x then some ((demands.getD block HashSet.empty).insert digest) else demands.get? x :=
  Map.get?_insert _ _ _ _

/-- A new entry does not take another one out. -/
theorem mem_wait_demands {d : Digest} (now : Nat) (old : ∃ ds, t.demands.get? x = some ds ∧ d ∈ ds) :
    ∃ ds, (t.wait digest block now).demands.get? x = some ds ∧ d ∈ ds := by
  obtain ⟨ds, found, among⟩ := old
  cases block with
  | none => exact ⟨ds, found, among⟩
  | some b =>
      change ∃ ds, (demand t.demands b.digest digest).get? x = some ds ∧ d ∈ ds
      rw [get?_demand]
      split
      · next same =>
          refine ⟨_, rfl, HashSet.mem_insert.mpr (.inr ?_)⟩
          rw [same, Map.getD, found]
          exact among
      · exact ⟨ds, found, among⟩

theorem Books.wait (h : t.Books) (fresh : t.pending.contains digest = false) (block : Option Block) (now : Nat) :
    (t.wait digest block now).Books where
  covered := by
    intro w mem
    show (t.pending.insert digest (now, block)).contains w.digest = true
    rw [Map.contains_insert]
    rcases List.mem_append.mp mem with old | new
    · rw [h.covered w old, Bool.or_true]
    · rw [List.mem_singleton.mp new]
      simp
  distinct := by
    show ((t.waiting ++ [_]).map SyncWaiter.digest).Nodup
    rw [List.map_append]
    apply List.nodup_append.mpr
    refine ⟨h.distinct, by simp, ?_⟩
    intro d old d' new same
    obtain ⟨w, mem, rfl⟩ := List.mem_map.mp old
    have covered := h.covered w mem
    simp only [List.map_cons, List.map_nil, List.mem_singleton] at new
    rw [same, new, fresh] at covered
    contradiction
  demanded := by
    intro w mem b held
    rcases List.mem_append.mp mem with old | new
    · exact mem_wait_demands now (h.demanded w old b held)
    · rw [List.mem_singleton.mp new] at held ⊢
      dsimp only at held
      subst held
      exact ⟨_, (get?_demand _ _ _ _).trans (if_pos rfl), HashSet.mem_insert.mpr (.inl rfl)⟩

theorem Books.request (h : t.Books) (author : PublicKey) (digest : Digest) (failed : Bool) (now : Nat) :
    (t.request author digest block failed now).Books := by
  unfold SyncTask.request
  split
  · exact h
  · split
    · exact h
    · next fresh =>
        have unasked : t.pending.contains digest = false := by simpa using fresh
        have waits := h.wait unasked block now
        unfold SyncTask.sendRequest
        split <;> exact waits.congr rfl rfl rfl

/-! ## A waiter that ends -/

theorem mem_drop (h : t.Books) {place : Nat} (found : t.waiting[place]? = some w) :
    w' ∈ (t.drop place).waiting ↔ w' ∈ t.waiting ∧ w'.digest ≠ w.digest := by
  have mem := List.mem_of_getElem? found
  unfold drop
  dsimp only
  rw [List.mem_eraseIdx_iff_getElem?]
  constructor
  · rintro ⟨i, other, at_⟩
    refine ⟨List.mem_of_getElem? at_, fun same => other ?_⟩
    have mapped : (t.waiting.map SyncWaiter.digest)[i]? = (t.waiting.map SyncWaiter.digest)[place]? := by
      rw [List.getElem?_map, List.getElem?_map, at_, found, Option.map_some, Option.map_some, same]
    have bound : i < (t.waiting.map SyncWaiter.digest).length := by
      rw [List.length_map]
      exact (List.getElem?_eq_some_iff.mp at_).1
    exact (List.getElem?_inj bound h.distinct).mp mapped
  · rintro ⟨mem', other⟩
    obtain ⟨i, at_⟩ := List.mem_iff_getElem?.mp mem'
    refine ⟨i, fun same => other ?_, at_⟩
    rw [same, found] at at_
    rw [Option.some.inj at_]

/-- A waiter leaves `waiting`, and no other waiter loses its entries. -/
theorem Books.ended {place : Nat} (h : t.Books) (found : t.waiting[place]? = some w) {t' : SyncTask}
    (waiting : t'.waiting = (t.drop place).waiting)
    (covered : ∀ x, x ≠ w.digest → t.pending.contains x = true → t'.pending.contains x = true)
    (demanded : ∀ w' ∈ t.waiting, w'.digest ≠ w.digest → ∀ b, w'.block = some b →
      ∃ ds, t'.demands.get? b.digest = some ds ∧ w'.digest ∈ ds) :
    t'.Books := by
  constructor
  · intro w' mem
    rw [waiting] at mem
    obtain ⟨old, other⟩ := (mem_drop h found).mp mem
    exact covered _ other (h.covered w' old)
  · rw [waiting]
    exact h.distinct.sublist ((List.eraseIdx_sublist _ _).map _)
  · intro w' mem
    rw [waiting] at mem
    obtain ⟨old, other⟩ := (mem_drop h found).mp mem
    exact demanded w' old other

/-- The read of a waiter fails, and its entries stay. -/
theorem Books.drop (h : t.Books) (place : Nat) : (t.drop place).Books := by
  obtain ⟨covered, distinct, demanded⟩ := h
  have from_ {w : SyncWaiter} (mem : w ∈ (t.drop place).waiting) : w ∈ t.waiting := List.mem_of_mem_eraseIdx mem
  constructor
  · exact fun w mem => covered w (from_ mem)
  · exact distinct.sublist ((List.eraseIdx_sublist _ _).map _)
  · exact fun w mem => demanded w (from_ mem)

omit [Crypto] in
theorem contains_remove_ne {pending : Map Digest (Nat × Option Block)} (other : x ≠ digest)
    (covered : pending.contains x = true) : (pending.remove digest).contains x = true := by
  unfold Map.contains
  rwa [Map.get?_remove_ne _ other.symm]

/-- A waiter that held up no block has read one. -/
theorem Books.received (h : t.Books) {place : Nat} (found : t.waiting[place]? = some w) :
    Books { t.drop place with pending := t.pending.remove w.digest } := by
  refine h.ended found (by rfl) ?_ ?_
  · exact fun x other => contains_remove_ne other
  · exact fun w' mem _ b held => h.demanded w' mem b held

/-- Another waiter of the same block is still in the set. -/
theorem Books.left (h : t.Books) {b : Block} {ds : HashSet Digest} (demands : t.demands.get? b.digest = some ds)
    (mem : w' ∈ t.waiting) (other : w'.digest ≠ w.digest) {b' : Block} (held : w'.block = some b')
    (same : b.digest = b'.digest) : w'.digest ∈ ds.remove w.digest := by
  obtain ⟨ds', demands', among⟩ := h.demanded w' mem b' held
  rw [← same, demands, Option.some.injEq] at demands'
  rw [← demands'] at among
  exact HashSet.mem_remove.mpr ⟨other, among⟩

/-- The block of the waiter is not held up for the digest any more. -/
theorem Books.resume (h : t.Books) {place : Nat} (found : t.waiting[place]? = some w) {b : Block}
    (held : w.block = some b) :
    (SyncTask.resume { t.drop place with pending := t.pending.remove w.digest } b w.digest).Books := by
  obtain ⟨ds, demands, -⟩ := h.demanded w (List.mem_of_getElem? found) b held
  unfold SyncTask.resume
  dsimp only
  rw [show (t.drop place).demands.get? b.digest = some ds from demands]
  dsimp only
  split
  · next empty =>
      refine h.ended found (by rfl) (fun x other => contains_remove_ne other) ?_
      intro w' mem other b' held'
      by_cases same : b.digest = b'.digest
      · have among := h.left demands mem other held' same
        rw [HashSet.isEmpty, List.isEmpty_iff] at empty
        change _ ∈ (ds.remove w.digest).items at among
        rw [empty] at among
        exact absurd among List.not_mem_nil
      · obtain ⟨ds', demands', among⟩ := h.demanded w' mem b' held'
        exact ⟨ds', (Map.get?_remove_ne _ same).trans demands', among⟩
  · refine h.ended found (by rfl) (fun x other => contains_remove_ne other) ?_
    intro w' mem other b' held'
    show ∃ ds', (t.demands.insert b.digest (ds.remove w.digest)).get? b'.digest = some ds' ∧ w'.digest ∈ ds'
    rw [Map.get?_insert]
    split
    · next same => exact ⟨_, rfl, h.left demands mem other held' same⟩
    · exact h.demanded w' mem b' held'

/-- When the value can be read as a block, it is the block of that digest. -/
def Files [Bincode] (digest : Digest) (value : Value) : Prop :=
  ∀ received, Synchronizer.decodeBlock value = .ok received → received.digest = digest

theorem files_block [Bincode] (b : Block) : Files b.digest (.block b) := by
  intro received read
  cases read
  rfl

theorem Books.finish [Bincode] (h : t.Books) {place : Nat} {value : Value} (found : t.waiting[place]? = some w)
    (files : Files w.digest value) : (t.finish place w value).Books := by
  unfold SyncTask.finish
  cases decoded : Synchronizer.decodeBlock value with
  | error e => exact (h.drop place).congr rfl rfl rfl
  | ok received =>
      dsimp only
      rw [files received decoded]
      cases held : w.block with
      | none => exact h.received found
      | some b => exact h.resume found held

/-! ## What the waiters read -/

/-- Every stored block, and every block that a waiter may have read, is filed under its own digest. -/
structure Filed [Bincode] (t : SyncTask) : Prop where
  store : ∀ d v, t.store.get? d = some v → Files d v
  seen : ∀ w ∈ t.waiting, ∀ v ∈ w.seen, Files w.digest v

theorem resume_waiting (b : Block) (received : Digest) : (t.resume b received).waiting = t.waiting := by
  unfold resume
  split
  · rfl
  · dsimp only
    split <;> rfl

theorem resume_store (b : Block) (received : Digest) : (t.resume b received).store = t.store := by
  unfold resume
  split
  · rfl
  · dsimp only
    split <;> rfl

theorem resume_inner (b : Block) (received : Digest) : (t.resume b received).inner = t.inner := by
  unfold resume
  split
  · rfl
  · dsimp only
    split <;> rfl

theorem finish_waiting [Bincode] (place : Nat) (w : SyncWaiter) (value : Value) :
    (t.finish place w value).waiting = t.waiting.eraseIdx place := by
  unfold finish
  split
  · rfl
  · cases w.block with
    | none => rfl
    | some b => exact resume_waiting b _

theorem finish_store [Bincode] (place : Nat) (w : SyncWaiter) (value : Value) : (t.finish place w value).store = t.store := by
  unfold finish
  split
  · rfl
  · cases w.block with
    | none => rfl
    | some b => exact resume_store b _

theorem finish_inner [Bincode] (place : Nat) (w : SyncWaiter) (value : Value) : (t.finish place w value).inner = t.inner := by
  unfold finish
  split
  · rfl
  · cases w.block with
    | none => rfl
    | some b => exact resume_inner b _

/-- A request starts a waiter, or none. -/
theorem request_waiting (author : PublicKey) (digest : Digest) (block : Option Block) (failed : Bool) (now : Nat) :
    (t.request author digest block failed now).waiting = t.waiting ∨
      (t.request author digest block failed now).waiting =
        t.waiting ++ [⟨digest, block, (t.store.get? digest).toList⟩] := by
  unfold request sendRequest
  split_ifs
  · exact .inl rfl
  · exact .inl rfl
  · split <;> exact .inr rfl

theorem request_inner (author : PublicKey) (digest : Digest) (block : Option Block) (failed : Bool) (now : Nat) :
    (t.request author digest block failed now).inner = t.inner := by
  unfold request sendRequest
  split_ifs
  · rfl
  · rfl
  · split <;> rfl

theorem request_store (author : PublicKey) (digest : Digest) (block : Option Block) (failed : Bool) (now : Nat) :
    (t.request author digest block failed now).store = t.store := by
  unfold request sendRequest
  split_ifs
  · rfl
  · rfl
  · split <;> rfl

theorem Filed.fewer [Bincode] (h : t.Filed) {t' : SyncTask} (store : t'.store = t.store)
    (waiting : ∀ w ∈ t'.waiting, w ∈ t.waiting) : t'.Filed := by
  constructor
  · rw [store]
    exact h.store
  · exact fun w mem => h.seen w (waiting w mem)

theorem Filed.request [Bincode] (h : t.Filed) (author : PublicKey) (digest : Digest) (failed : Bool) (now : Nat) :
    (t.request author digest block failed now).Filed := by
  constructor
  · rw [request_store]
    exact h.store
  · rcases request_waiting (t := t) author digest block failed now with same | more
    · rw [same]
      exact h.seen
    · rw [more]
      intro w mem v read
      rcases List.mem_append.mp mem with old | new
      · exact h.seen w old v read
      · rw [List.mem_singleton.mp new] at read ⊢
        exact h.store _ _ (Option.mem_toList.mp read)

theorem Filed.task [Bincode] {input : SyncInput} (h : t.Filed) : (t.task input).Filed := by
  cases input with
  | receive failed now =>
      unfold SyncTask.task
      cases t.inner with
      | nil => exact h
      | cons entry rest =>
          have popped : Filed { t with inner := rest } := h.fewer rfl fun _ mem => mem
          exact popped.request _ _ _ _
  | finish place value =>
      unfold SyncTask.task
      dsimp only
      split
      · next w _ =>
          split
          · apply h.fewer (finish_store place w value)
            rw [finish_waiting]
            exact fun _ => List.mem_of_mem_eraseIdx
          · exact h
      · exact h
  | fail place => exact h.fewer rfl fun _ => List.mem_of_mem_eraseIdx
  | tick now => exact h.fewer rfl fun _ mem => mem
  | getBlock author digest block failed => exact h
  | write digest value => exact h

theorem Filed.write [Bincode] (h : t.Filed) {value : Value} (files : Files digest value) : (t.write digest value).Filed := by
  constructor
  · intro d v stored
    change (t.store.insert digest value).get? d = some v at stored
    rw [Map.get?_insert] at stored
    split at stored
    · next same =>
        rw [← same, ← Option.some.inj stored]
        exact files
    · exact h.store d v stored
  · intro w mem v read
    obtain ⟨w', old, rfl⟩ := List.mem_map.mp mem
    split at read
    · next same =>
        rw [if_pos same]
        rcases List.mem_append.mp read with earlier | new
        · exact h.seen w' old v earlier
        · rw [List.mem_singleton.mp new]
          exact same ▸ files
    · next other =>
        rw [if_neg other]
        exact h.seen w' old v read

/-- What is written is filed. -/
def WritesFiled [Bincode] : SyncInput → Prop
  | .write digest value => Files digest value
  | _ => True

theorem Filed.step [Bincode] {input : SyncInput} (h : t.Filed) (files : WritesFiled input) : (t.step input).Filed := by
  have tasks : Filed (if t.alive then t.task input else t) := by
    split
    · exact h.task
    · exact h
  cases input with
  | getBlock author digest block failed =>
      show (t.getBlock author digest block failed).Filed
      unfold SyncTask.getBlock
      split
      · exact h
      · exact h.fewer rfl fun _ mem => mem
  | write digest value => exact h.write files
  | receive failed now | finish place value | fail place | tick now => exact tasks

/-! ## Steps and runs -/

theorem Books.write (h : t.Books) (digest : Digest) (value : Value) : (t.write digest value).Books := by
  have same (w : SyncWaiter) : (if w.digest = digest then { w with seen := w.seen ++ [value] } else w).digest = w.digest ∧
      (if w.digest = digest then { w with seen := w.seen ++ [value] } else w).block = w.block := by
    split <;> exact ⟨rfl, rfl⟩
  constructor
  · intro w mem
    obtain ⟨w', old, rfl⟩ := List.mem_map.mp mem
    rw [(same w').1]
    exact h.covered w' old
  · show ((t.waiting.map _).map SyncWaiter.digest).Nodup
    rw [List.map_map]
    convert h.distinct using 2
    funext w
    exact (same w).1
  · intro w mem b held
    obtain ⟨w', old, rfl⟩ := List.mem_map.mp mem
    rw [(same w').2] at held
    rw [(same w').1]
    exact h.demanded w' old b held

theorem Books.task [Bincode] {input : SyncInput} (h : t.Books) (filed : t.Filed) : (t.task input).Books := by
  cases input with
  | receive failed now =>
      unfold SyncTask.task
      cases t.inner with
      | nil => exact h
      | cons entry rest =>
          have popped : Books { t with inner := rest } := h.congr rfl rfl rfl
          exact popped.request _ _ _ _
  | finish place value =>
      unfold SyncTask.task
      dsimp only
      split
      · next w found =>
          split
          · next read => exact h.finish found (filed.seen w (List.mem_of_getElem? found) value read)
          · exact h
      · exact h
  | fail place => exact h.drop place
  | tick now => exact h.congr rfl rfl rfl
  | getBlock author digest block failed => exact h
  | write digest value => exact h

theorem Books.step [Bincode] {input : SyncInput} (h : t.Books) (filed : t.Filed) : (t.step input).Books := by
  have tasks : Books (if t.alive then t.task input else t) := by
    split
    · exact h.task filed
    · exact h
  cases input with
  | getBlock author digest block failed =>
      show (t.getBlock author digest block failed).Books
      unfold SyncTask.getBlock
      split
      · exact h
      · exact h.congr rfl rfl rfl
  | write digest value => exact h.write digest value
  | receive failed now | finish place value | fail place | tick now => exact tasks

theorem Books.run [Bincode] {inputs : List SyncInput} (h : t.Books) (filed : t.Filed) (files : ∀ input ∈ inputs, WritesFiled input) :
    (t.run inputs).Books ∧ (t.run inputs).Filed := by
  induction inputs generalizing t with
  | nil => exact ⟨h, filed⟩
  | cons input rest ih =>
      apply ih
      · exact h.step filed
      · exact filed.step (files input List.mem_cons_self)
      · exact fun input mem => files input (List.mem_cons_of_mem _ mem)

/-! ## The blocks that are sent back -/

/-- The entry that a waiter looks up is there. -/
theorem Books.alive [Bincode] (h : t.Books) (alive : t.alive = true) (place : Nat) {value : Value}
    (reads : Synchronizer.decodeBlock value ≠ .error .panic) : (t.step (.finish place value)).alive = true := by
  show (if t.alive then t.task (.finish place value) else t).alive = true
  rw [if_pos alive]
  unfold SyncTask.task
  dsimp only
  split
  · next w found =>
      split
      · have waiting := List.mem_of_getElem? found
        unfold SyncTask.finish
        cases decoded : Synchronizer.decodeBlock value with
        | error e => exact decide_eq_true fun panics => reads (panics ▸ decoded)
        | ok received =>
            dsimp only
            cases held : w.block with
            | none => exact alive
            | some b =>
                obtain ⟨ds, demands, -⟩ := h.demanded w waiting b held
                show (SyncTask.resume _ b received.digest).alive = true
                unfold SyncTask.resume
                dsimp only
                rw [show (t.drop place).demands.get? b.digest = some ds from demands]
                dsimp only
                split <;> exact alive
      · exact alive
  · exact alive

theorem resume_log (b : Block) (received : Digest) :
    (t.resume b received).log = t.log ∨ (t.resume b received).log = t.log ++ [.loopBack b] := by
  unfold resume
  split
  · exact .inl rfl
  · dsimp only
    split
    · exact .inr rfl
    · exact .inl rfl

theorem finish_log [Bincode] (place : Nat) (w : SyncWaiter) (value : Value) :
    (t.finish place w value).log = t.log ∨
      ∃ b, w.block = some b ∧ (t.finish place w value).log = t.log ++ [.loopBack b] := by
  unfold finish
  split
  · exact .inl rfl
  · cases w.block with
    | none => exact .inl rfl
    | some b =>
        rcases resume_log (t := { t.drop place with pending := t.pending.remove _ }) b _ with same | sent
        · exact .inl same
        · exact .inr ⟨b, rfl, sent⟩

/-- A step that ends a waiter of a block, and sends the block to the core. -/
def SentBack [Bincode] (t : SyncTask) (input : SyncInput) (B : Block) : Prop :=
  ∃ place value w, input = .finish place value ∧ t.waiting[place]? = some w ∧ w.block = some B ∧
    (t.step input).waiting = t.waiting.eraseIdx place ∧ (t.step input).log = t.log ++ [.loopBack B]

theorem step_sends [Bincode] (input : SyncInput) :
    (∃ sent, (t.step input).log = t.log ++ sent ∧ ∀ B, .loopBack B ∉ sent) ∨ ∃ B, t.SentBack input B := by
  have still {t' : SyncTask} (same : t'.log = t.log) : ∃ sent, t'.log = t.log ++ sent ∧ ∀ B, .loopBack B ∉ sent :=
    ⟨[], by rw [same, List.append_nil], fun B => List.not_mem_nil⟩
  cases input with
  | getBlock author digest block failed =>
      left
      apply still
      show (t.getBlock author digest block failed).log = t.log
      unfold getBlock
      split <;> rfl
  | write digest value => exact .inl (still rfl)
  | receive failed now =>
      left
      show ∃ sent, (if t.alive then t.task (.receive failed now) else t).log = t.log ++ sent ∧ ∀ B, .loopBack B ∉ sent
      split
      · unfold task
        cases t.inner with
        | nil => exact still rfl
        | cons entry rest =>
            dsimp only
            unfold request sendRequest
            split_ifs
            · exact still rfl
            · exact still rfl
            · split
              · exact ⟨_, rfl, by simp⟩
              · exact still rfl
      · exact still rfl
  | finish place value =>
      unfold SentBack
      have ends : t.step (.finish place value) = if t.alive then t.task (.finish place value) else t := rfl
      rw [ends]
      split
      · unfold task
        dsimp only
        cases found : t.waiting[place]? with
        | none => exact .inl (still rfl)
        | some w =>
            dsimp only
            split
            · rcases finish_log (t := t) place w value with same | ⟨b, held, sent⟩
              · exact .inl (still same)
              · exact .inr ⟨b, place, value, w, rfl, found, held, finish_waiting place w value, sent⟩
            · exact .inl (still rfl)
      · exact .inl (still rfl)
  | fail place =>
      left
      show ∃ sent, (if t.alive then t.drop place else t).log = t.log ++ sent ∧ ∀ B, .loopBack B ∉ sent
      split <;> exact still rfl
  | tick now =>
      left
      show ∃ sent, (if t.alive then t.task (.tick now) else t).log = t.log ++ sent ∧ ∀ B, .loopBack B ∉ sent
      split
      · exact ⟨_, rfl, by simp⟩
      · exact still rfl

/-- A block is sent to the core only in a step that ends one of its waiters. -/
theorem sentBack_of_mem [Bincode] {input : SyncInput} (sent : .loopBack B ∈ (t.step input).log.drop t.log.length) :
    t.SentBack input B := by
  rcases step_sends (t := t) input with ⟨others, log, none⟩ | ⟨B', place, value, w, rfl, found, held, waiting, log⟩
  · rw [log, List.drop_left] at sent
    exact absurd sent (none B)
  · rw [log, List.drop_left, List.mem_singleton] at sent
    cases sent
    exact ⟨place, value, w, rfl, found, held, waiting, log⟩

/-- The waiters that a run starts. -/
def begun [Bincode] (t : SyncTask) : List SyncInput → List SyncWaiter
  | [] => []
  | input :: rest => (t.step input).waiting.drop t.waiting.length ++ (t.step input).begun rest

/-- The waiters of a block among others. -/
def waitersOf (B : Block) (l : List SyncWaiter) : Nat := l.countP fun w => w.block = some B

omit [Crypto] in
theorem waitersOf_append (l l' : List SyncWaiter) : waitersOf B (l ++ l') = waitersOf B l + waitersOf B l' :=
  List.countP_append

/-- What a step does to the waiters that were there. -/
theorem step_waiting [Bincode] (input : SyncInput) :
    waitersOf B (t.step input).waiting ≤ waitersOf B t.waiting + waitersOf B ((t.step input).waiting.drop t.waiting.length) := by
  have fewer {l : List SyncWaiter} (le : waitersOf B l ≤ waitersOf B t.waiting) :
      waitersOf B l ≤ waitersOf B t.waiting + waitersOf B (l.drop t.waiting.length) := Nat.le_add_right_of_le le
  have ended (place : Nat) : waitersOf B (t.waiting.eraseIdx place) ≤ waitersOf B t.waiting :=
    (List.eraseIdx_sublist _ _).countP_le
  cases input with
  | getBlock author digest block failed =>
      apply fewer
      show waitersOf B (t.getBlock author digest block failed).waiting ≤ _
      unfold getBlock
      split <;> exact le_rfl
  | write digest value =>
      apply fewer
      show waitersOf B (t.waiting.map _) ≤ _
      unfold waitersOf
      rw [List.countP_map]
      apply le_of_eq
      congr 1
      funext w
      dsimp only [Function.comp]
      split <;> rfl
  | receive failed now =>
      have ends : t.step (.receive failed now) = if t.alive then t.task (.receive failed now) else t := rfl
      rw [ends]
      split
      · unfold task
        cases t.inner with
        | nil => exact fewer le_rfl
        | cons entry rest =>
            obtain ⟨author, digest, block⟩ := entry
            dsimp only
            rcases request_waiting (t := { t with inner := rest }) author digest block failed now with same | more
            · rw [same]
              exact fewer le_rfl
            · rw [more]
              dsimp only
              rw [List.drop_left, waitersOf_append]
      · exact fewer le_rfl
  | finish place value =>
      apply fewer
      show waitersOf B (if t.alive then t.task (.finish place value) else t).waiting ≤ _
      split
      · unfold task
        dsimp only
        split
        · split
          · rw [finish_waiting]
            exact ended place
          · exact le_rfl
        · exact le_rfl
      · exact le_rfl
  | fail place =>
      apply fewer
      show waitersOf B (if t.alive then t.drop place else t).waiting ≤ _
      split
      · exact ended place
      · exact le_rfl
  | tick now =>
      apply fewer
      show waitersOf B (if t.alive then t.task (.tick now) else t).waiting ≤ _
      split <;> exact le_rfl

omit [Crypto] in
/-- A waiter that sends its block to the core is gone. -/
theorem waitersOf_eraseIdx {l : List SyncWaiter} {place : Nat} (found : l[place]? = some w) (held : w.block = some B) :
    waitersOf B (l.eraseIdx place) + 1 = waitersOf B l := by
  obtain ⟨bound, at_⟩ := List.getElem?_eq_some_iff.mp found
  have perm := (List.getElem_cons_eraseIdx_perm bound).countP_eq fun w => w.block = some B
  rw [at_, List.countP_cons_of_pos (by simpa using held)] at perm
  exact perm

theorem step_counts [Bincode] (input : SyncInput) :
    (t.step input).log.count (.loopBack B) + waitersOf B (t.step input).waiting ≤
      t.log.count (.loopBack B) + waitersOf B t.waiting + waitersOf B ((t.step input).waiting.drop t.waiting.length) := by
  rcases step_sends (t := t) input with ⟨sent, log, none⟩ | ⟨B', place, value, w, rfl, found, held, waiting, log⟩
  · have waits := step_waiting (t := t) (B := B) input
    rw [log, List.count_append, List.count_eq_zero.mpr (none B)]
    omega
  · rw [log, waiting, List.count_append]
    by_cases same : B' = B
    · subst same
      have ends := waitersOf_eraseIdx found held
      rw [List.count_singleton_self]
      omega
    · have fewer : waitersOf B (t.waiting.eraseIdx place) ≤ waitersOf B t.waiting := (List.eraseIdx_sublist _ _).countP_le
      have other : List.count (SyncEvent.loopBack B) [.loopBack B'] = 0 := by simp [same]
      omega

/-- No more blocks are sent to the core than waiters of them have ended. -/
theorem run_counts [Bincode] (inputs : List SyncInput) :
    (t.run inputs).log.count (.loopBack B) + waitersOf B (t.run inputs).waiting ≤
      t.log.count (.loopBack B) + waitersOf B t.waiting + waitersOf B (t.begun inputs) := by
  induction inputs generalizing t with
  | nil => exact Nat.le_add_right _ _
  | cons input rest ih =>
      have first := step_counts (t := t) (B := B) input
      have later := ih (t := t.step input)
      rw [begun, waitersOf_append]
      show ((t.step input).run rest).log.count _ + waitersOf B ((t.step input).run rest).waiting ≤ _
      omega

/-- The three collections agree in every run, the lookups of the task succeed, and a waiter sends its
block to the core at most once. -/
theorem synchronizer_consistent [Bincode] (name : PublicKey) (committee : Committee) (store : Store) (delay : Nat)
    (inputs : List SyncInput) (stored : ∀ d v, store.get? d = some v → Files d v)
    (written : ∀ input ∈ inputs, WritesFiled input) :
    ((new name committee store delay).run inputs).Books ∧
      (∀ place value, ((new name committee store delay).run inputs).alive = true →
        Synchronizer.decodeBlock value ≠ .error .panic → (((new name committee store delay).run inputs).step (.finish place value)).alive = true) ∧
      (∀ input B, .loopBack B ∈ (((new name committee store delay).run inputs).step input).log.drop
          ((new name committee store delay).run inputs).log.length →
        ((new name committee store delay).run inputs).SentBack input B) ∧
      ∀ B, ((new name committee store delay).run inputs).log.count (.loopBack B) +
          waitersOf B ((new name committee store delay).run inputs).waiting ≤
        waitersOf B ((new name committee store delay).begun inputs) := by
  have filed : (new name committee store delay).Filed := ⟨stored, fun w mem => absurd mem List.not_mem_nil⟩
  obtain ⟨books, filed⟩ := (books_new name committee store delay).run filed written
  refine ⟨books, ?_, ?_, ?_⟩
  · exact fun place value alive reads => books.alive alive place reads
  · exact fun input B => sentBack_of_mem
  · intro B
    have counts := run_counts (t := new name committee store delay) (B := B) inputs
    simpa [new, waitersOf] using counts

end SyncTask
end HotstuffDag

namespace HotstuffDag.Sample
open Library

/-- The block of another authority that is missing, and the block that is held up. -/
def missingBlock : Block := Block.new QC.genesis (key 1) 1 0 [] []

def heldBlock : Block := above missingBlock

def syncTask : SyncTask := .new (key 2) four Map.empty 10000

/-- The parent of a proposal is requested, and arrives. -/
def arrival : List SyncInput :=
  [.receive false 0, .write missingBlock.digest (.block missingBlock), .finish 0 (.block missingBlock)]

def requestParent : SyncInput := .getBlock (key 1) missingBlock.digest (some heldBlock) false

theorem parent_resumes_once :
    (syncTask.run (requestParent :: arrival)).Books ∧
      (syncTask.run (requestParent :: arrival)).log.count (.loopBack heldBlock) = 1 := by
  have filed (input : SyncInput) (mem : input ∈ requestParent :: arrival) : SyncTask.WritesFiled input := by
    rcases List.mem_cons.mp mem with rfl | mem
    · trivial
    · rcases List.mem_cons.mp mem with rfl | mem
      · trivial
      · rcases List.mem_cons.mp mem with rfl | mem
        · exact SyncTask.files_block missingBlock
        · rw [List.mem_singleton.mp mem]
          trivial
  have consistent := SyncTask.synchronizer_consistent (key 2) four Map.empty 10000 (requestParent :: arrival)
    (fun d v found => absurd found (by simp)) filed
  exact ⟨consistent.1, by decide +kernel⟩

end HotstuffDag.Sample
