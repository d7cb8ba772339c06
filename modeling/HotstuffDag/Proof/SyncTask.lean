import HotstuffDag.Proof.SyncBooks

/-! # Blocks held up by missing blocks

`demands` says which digests a block is held up for, and `pending` which digests are asked for. A
block whose request finds its digest pending or stored is not entered in `demands`, and nothing
brings it back. -/

namespace HotstuffDag
open Library Library.Exec

/-! ## The requests of a core -/

def requestsOf (l : List Event) : List (PublicKey × Digest × Option Block) :=
  l.filterMap fun
    | .request author digest block => some (author, digest, block)
    | _ => none

/-- What a handler of the core sends to the task. -/
theorem requestsOf_getBlock [Bincode] (t : SyncTask) (s : State) (same : t.store = s.core.store) (sent : requestsOf s.log = t.inner)
    (author : PublicKey) (digest : Digest) (block : Option Block) :
    requestsOf (final (Synchronizer.getBlock author digest block) s).log =
      (t.getBlock author digest block (s.env.failures.headD false)).inner := by
  unfold Synchronizer.getBlock SyncTask.getBlock
  by_cases genesis : digest = QC.genesis.hash
  · rw [if_pos genesis, if_pos (.inl genesis)]
    exact sent
  · rw [if_neg genesis]
    simp only [genesis, false_or]
    have contains : t.store.contains digest = (s.core.store.get? digest).isSome := by
      rw [same]
      rfl
    have asked : requestsOf (s.log ++ [.request author digest block]) = t.inner ++ [(author, digest, block)] := by
      rw [← sent]
      exact List.filterMap_append
    rw [contains]
    unfold Exec.final Synchronizer.read
    cases failures : s.env.failures with
    | nil =>
        cases stored : s.core.store.get? digest with
        | some value =>
            simp only [bind_eq, get_run, pure_run, failures, stored, Synchronizer.readBlock]
            cases Synchronizer.decodeBlock value <;> exact sent
        | none =>
            simp only [bind_eq, get_run, pure_run, failures, stored]
            exact asked
    | cons failed rest =>
        cases failed with
        | true =>
            simp only [bind_eq, get_run, failures]
            exact sent
        | false =>
            cases stored : s.core.store.get? digest with
            | some value =>
                simp only [bind_eq, get_run, failures, stored]
                show requestsOf (final (do return some (← Synchronizer.readBlock value) : M (Option Block))
                  { s with env := { s.env with failures := rest } }).log = t.inner
                unfold Synchronizer.readBlock
                cases Synchronizer.decodeBlock value <;> exact sent
            | none =>
                simp only [bind_eq, get_run, failures, stored]
                exact asked

variable [Crypto]

namespace SyncTask
variable {t : SyncTask} {B : Block} {w w' : SyncWaiter} {digest x : Digest} {block : Option Block}

/-! ## Steps that keep a block -/

/-- What a step must do for the block not to get lost. A request for it either comes when the block is
in `demands`, or finds its digest neither stored nor pending; a waiter of the block reads a block, and
no waiter reads a block of another digest. -/
def registers [Bincode] (t : SyncTask) (B : Block) : SyncInput → Bool
  | .receive failed _ =>
      match t.inner with
      | (_, digest, some b) :: _ =>
          b.digest ≠ B.digest ||
            b = B && (t.demands.contains B.digest ||
              (failed || !t.store.contains digest) && !t.pending.contains digest)
      | _ => true
  | .finish place value =>
      match t.waiting[place]?, Synchronizer.decodeBlock value with
      | some w, .ok received => received.digest = w.digest
      | some w, .error e => e ≠ .panic && w.block.all fun b => b.digest ≠ B.digest
      | none, _ => true
  | .fail place =>
      match t.waiting[place]? with
      | some w => w.block.all fun b => b.digest ≠ B.digest
      | none => true
  | _ => true

/-- Every step of the run keeps the block. -/
def keeps [Bincode] (t : SyncTask) (B : Block) : List SyncInput → Bool
  | [] => true
  | input :: rest => t.registers B input && (t.step input).keeps B rest

/-! ## What every step keeps -/

structure Tracks (t : SyncTask) (B : Block) : Prop where
  covered : ∀ w ∈ t.waiting, t.pending.contains w.digest = true
  distinct : (t.waiting.map SyncWaiter.digest).Nodup
  demanded : ∀ w ∈ t.waiting, ∀ b, w.block = some b → ∃ ds, t.demands.get? b.digest = some ds ∧ w.digest ∈ ds
  named : ∀ w ∈ t.waiting, ∀ b, w.block = some b → b.digest = B.digest → b = B
  backed : ∀ ds, t.demands.get? B.digest = some ds →
    ds.isEmpty = false ∧ ∀ d ∈ ds, ∃ w ∈ t.waiting, w.digest = d ∧ w.block = some B

theorem tracks_new (name : PublicKey) (committee : Committee) (store : Store) (delay : Nat) (B : Block) :
    (new name committee store delay).Tracks B := by
  constructor <;> simp [new]

theorem Tracks.books (h : t.Tracks B) : t.Books := ⟨h.covered, h.distinct, h.demanded⟩

/-! ### A new waiter -/

theorem Tracks.wait (h : t.Tracks B) (fresh : t.pending.contains digest = false)
    (named : ∀ b, block = some b → b.digest = B.digest → b = B) (now : Nat) : (t.wait digest block now).Tracks B where
  covered := (h.books.wait fresh block now).covered
  distinct := (h.books.wait fresh block now).distinct
  demanded := (h.books.wait fresh block now).demanded
  named := by
    intro w mem b held same
    rcases List.mem_append.mp mem with old | new
    · exact h.named w old b held same
    · rw [List.mem_singleton.mp new] at held
      exact named b held same
  backed := by
    have kept (ds : HashSet Digest) (found : t.demands.get? B.digest = some ds) :
        ds.isEmpty = false ∧ ∀ d ∈ ds, ∃ w ∈ (t.wait digest block now).waiting, w.digest = d ∧ w.block = some B := by
      obtain ⟨filled, backed⟩ := h.backed ds found
      refine ⟨filled, fun d mem => ?_⟩
      obtain ⟨w, waiting, at_, holds⟩ := backed d mem
      exact ⟨w, List.mem_append_left _ waiting, at_, holds⟩
    intro ds found
    cases block with
    | none => exact kept ds found
    | some b =>
        change (demand t.demands b.digest digest).get? B.digest = some ds at found
        rw [get?_demand] at found
        split at found
        · next same =>
            have new : (⟨digest, some b, (t.store.get? digest).toList⟩ : SyncWaiter) ∈
                (t.wait digest (some b) now).waiting := List.mem_append_right _ List.mem_cons_self
            rw [← Option.some.inj found]
            refine ⟨?_, fun d mem => ?_⟩
            · have filled : digest ∈ (t.demands.getD b.digest HashSet.empty).insert digest :=
                HashSet.mem_insert.mpr (.inl rfl)
              exact List.isEmpty_eq_false_iff.mpr (List.ne_nil_of_mem filled)
            · rcases HashSet.mem_insert.mp mem with rfl | old
              · exact ⟨_, new, rfl, by rw [named b rfl same]⟩
              · unfold Map.getD at old
                rw [same] at old
                cases earlier : t.demands.get? B.digest with
                | none =>
                    rw [earlier] at old
                    exact absurd old HashSet.notMem_empty
                | some ds' =>
                    rw [earlier] at old
                    exact (kept ds' earlier).2 d old
        · exact kept ds found

theorem Tracks.congr (h : t.Tracks B) {t' : SyncTask} (waiting : t'.waiting = t.waiting) (pending : t'.pending = t.pending)
    (demands : t'.demands = t.demands) : t'.Tracks B := by
  obtain ⟨covered, distinct, demanded, named, backed⟩ := h
  constructor
  · rwa [waiting, pending]
  · rwa [waiting]
  · rwa [waiting, demands]
  · rwa [waiting]
  · rwa [waiting, demands]

theorem Tracks.sendRequest (h : t.Tracks B) (author : PublicKey) (digest : Digest) : (t.sendRequest author digest).Tracks B := by
  unfold SyncTask.sendRequest
  split <;> exact h.congr rfl rfl rfl

theorem Tracks.request (h : t.Tracks B) (named : ∀ b, block = some b → b.digest = B.digest → b = B) (author : PublicKey)
    (digest : Digest) (failed : Bool) (now : Nat) : (t.request author digest block failed now).Tracks B := by
  unfold SyncTask.request
  split
  · exact h
  · split
    · exact h
    · next fresh => exact (h.wait (by simpa using fresh) named now).sendRequest author digest

/-! ### A waiter that ends -/

/-- A waiter leaves `waiting`, and no digest of the block loses its waiter. -/
theorem Tracks.ended {place : Nat} (h : t.Tracks B) (found : t.waiting[place]? = some w) {t' : SyncTask}
    (waiting : t'.waiting = (t.drop place).waiting) (books : t'.Books)
    (backed : ∀ ds, t'.demands.get? B.digest = some ds → ds.isEmpty = false ∧
      ∀ d ∈ ds, (∃ ds, t.demands.get? B.digest = some ds ∧ d ∈ ds) ∧ (d = w.digest → w.block ≠ some B)) :
    t'.Tracks B := by
  refine ⟨books.covered, books.distinct, books.demanded, ?_, ?_⟩
  · intro w' mem
    rw [waiting] at mem
    exact h.named w' ((mem_drop h.books found).mp mem).1
  · intro ds demands
    obtain ⟨filled, from_⟩ := backed ds demands
    refine ⟨filled, fun d mem => ?_⟩
    obtain ⟨⟨old, demands', among⟩, own⟩ := from_ d mem
    obtain ⟨w', mem', at_, holds⟩ := (h.backed old demands').2 d among
    rw [waiting]
    refine ⟨w', (mem_drop h.books found).mpr ⟨mem', fun same => ?_⟩, at_, holds⟩
    rw [h.books.inj mem' (List.mem_of_getElem? found) same] at holds
    exact own (at_.symm.trans same) holds

theorem Tracks.drop {place : Nat} (h : t.Tracks B) (found : t.waiting[place]? = some w)
    (other : ∀ b, w.block = some b → b.digest ≠ B.digest) : (t.drop place).Tracks B := by
  apply h.ended found rfl (h.books.drop place)
  intro ds demands
  exact ⟨(h.backed ds demands).1, fun d mem => ⟨⟨ds, demands, mem⟩, fun _ held => other B held rfl⟩⟩

/-- A waiter that held up no block has read one. -/
theorem Tracks.received {place : Nat} (h : t.Tracks B) (found : t.waiting[place]? = some w) (none : w.block = none) :
    Tracks { t.drop place with pending := t.pending.remove w.digest } B := by
  refine h.ended found (by rfl) (h.books.received found) fun ds demands => ?_
  refine ⟨(h.backed ds demands).1, fun d mem => ⟨⟨ds, demands, mem⟩, fun _ held => ?_⟩⟩
  rw [none] at held
  contradiction

/-- The block of the waiter is not held up for the digest any more. -/
theorem Tracks.resume {place : Nat} (h : t.Tracks B) (found : t.waiting[place]? = some w) {b : Block}
    (held : w.block = some b) :
    (SyncTask.resume { t.drop place with pending := t.pending.remove w.digest } b w.digest).Tracks B := by
  obtain ⟨ds, demands, -⟩ := h.demanded w (List.mem_of_getElem? found) b held
  have apart (same : b.digest ≠ B.digest) : w.block ≠ some B := by
    rw [held]
    exact fun eq => same (congrArg _ (Option.some.inj eq))
  refine h.ended found (resume_waiting b w.digest) (h.books.resume found held) fun ds' demands' => ?_
  unfold SyncTask.resume at demands'
  dsimp only at demands'
  rw [show (t.drop place).demands.get? b.digest = some ds from demands] at demands'
  dsimp only at demands'
  split at demands'
  · change (t.demands.remove b.digest).get? B.digest = some ds' at demands'
    rw [Map.get?_remove] at demands'
    split at demands'
    · contradiction
    · next same =>
        exact ⟨(h.backed ds' demands').1, fun d mem => ⟨⟨ds', demands', mem⟩, fun _ => apart same⟩⟩
  · next filled =>
      change (t.demands.insert b.digest (ds.remove w.digest)).get? B.digest = some ds' at demands'
      rw [Map.get?_insert] at demands'
      split at demands'
      · next same =>
          rw [← Option.some.inj demands']
          refine ⟨by simpa using filled, fun d mem => ?_⟩
          obtain ⟨other, among⟩ := HashSet.mem_remove.mp mem
          exact ⟨⟨ds, same ▸ demands, among⟩, fun same => absurd same other⟩
      · next same =>
          exact ⟨(h.backed ds' demands').1, fun d mem => ⟨⟨ds', demands', mem⟩, fun _ => apart same⟩⟩

theorem Tracks.finish [Bincode] {place : Nat} {value : Value} (h : t.Tracks B) (found : t.waiting[place]? = some w)
    (reads : t.registers B (.finish place value) = true) : (t.finish place w value).Tracks B := by
  unfold registers at reads
  dsimp only at reads
  rw [found] at reads
  unfold SyncTask.finish
  cases decoded : Synchronizer.decodeBlock value with
  | error e =>
      rw [decoded] at reads
      have others : (w.block.all fun b => b.digest ≠ B.digest) = true := (Bool.and_eq_true_iff.mp reads).2
      exact (h.drop found fun b held => by simpa [held] using others).congr rfl rfl rfl
  | ok received =>
      rw [decoded] at reads
      have same : received.digest = w.digest := by simpa using reads
      dsimp only
      rw [same]
      cases held : w.block with
      | none => exact h.received found held
      | some b => exact h.resume found held

theorem Tracks.task [Bincode] {input : SyncInput} (h : t.Tracks B) (ok : t.registers B input = true) : (t.task input).Tracks B := by
  cases input with
  | receive failed now =>
      unfold SyncTask.task
      unfold registers at ok
      dsimp only at ok ⊢
      cases queue : t.inner with
      | nil => exact h
      | cons entry rest =>
          obtain ⟨author, digest, block⟩ := entry
          have popped : Tracks { t with inner := rest } B := h.congr rfl rfl rfl
          refine popped.request (fun b held same => ?_) author digest failed now
          rw [queue, held] at ok
          simp only [same, ne_eq, not_true_eq_false, decide_false, Bool.false_or, Bool.and_eq_true, decide_eq_true_eq] at ok
          exact ok.1
  | finish place value =>
      unfold SyncTask.task
      dsimp only
      split
      · next w found =>
          split
          · exact h.finish found ok
          · exact h
      · exact h
  | fail place =>
      unfold registers at ok
      dsimp only at ok
      change (t.drop place).Tracks B
      cases found : t.waiting[place]? with
      | none =>
          have same : t.waiting.eraseIdx place = t.waiting := List.eraseIdx_of_length_le (List.getElem?_eq_none_iff.mp found)
          exact h.congr same rfl rfl
      | some w =>
          rw [found] at ok
          exact h.drop found fun b held => by simpa [held] using ok
  | tick now => exact h.congr rfl rfl rfl
  | getBlock author digest block failed | write digest value => exact h

theorem Tracks.write (h : t.Tracks B) (digest : Digest) (value : Value) : (t.write digest value).Tracks B := by
  let see (w : SyncWaiter) : SyncWaiter := if w.digest = digest then { w with seen := w.seen ++ [value] } else w
  have at_ (w : SyncWaiter) : (see w).digest = w.digest := by
    dsimp only [see]
    split <;> rfl
  have holds (w : SyncWaiter) : (see w).block = w.block := by
    dsimp only [see]
    split <;> rfl
  have waiting : (t.write digest value).waiting = t.waiting.map see := rfl
  have digests : (t.waiting.map see).map SyncWaiter.digest = t.waiting.map SyncWaiter.digest := by
    rw [List.map_map]
    exact List.map_congr_left fun w _ => at_ w
  constructor
  · intro w mem
    obtain ⟨w', mem', rfl⟩ := List.mem_map.mp (waiting ▸ mem)
    rw [at_]
    exact h.covered w' mem'
  · rw [waiting, digests]
    exact h.distinct
  · intro w mem b held
    obtain ⟨w', mem', rfl⟩ := List.mem_map.mp (waiting ▸ mem)
    rw [at_]
    exact h.demanded w' mem' b (holds w' ▸ held)
  · intro w mem b held
    obtain ⟨w', mem', rfl⟩ := List.mem_map.mp (waiting ▸ mem)
    exact h.named w' mem' b (holds w' ▸ held)
  · intro ds demands
    obtain ⟨filled, backed⟩ := h.backed ds demands
    refine ⟨filled, fun d mem => ?_⟩
    obtain ⟨w, mem', rfl, held⟩ := backed d mem
    exact ⟨see w, List.mem_map.mpr ⟨w, mem', rfl⟩, at_ w, (holds w).trans held⟩

theorem Tracks.step [Bincode] {input : SyncInput} (h : t.Tracks B) (ok : t.registers B input = true) : (t.step input).Tracks B := by
  have tasks : Tracks (if t.alive then t.task input else t) B := by
    split
    · exact h.task ok
    · exact h
  cases input with
  | getBlock author digest block failed =>
      change (t.getBlock author digest block failed).Tracks B
      unfold SyncTask.getBlock
      split
      · exact h
      · exact h.congr rfl rfl rfl
  | write digest value => exact h.write digest value
  | receive failed now | finish place value | fail place | tick now => exact tasks

/-! ## A block that is held up -/

/-- A request for the block is on its way to the task, or the task holds the block up. -/
def HeldUp (t : SyncTask) (B : Block) : Prop :=
  (∃ author digest, (author, digest, some B) ∈ t.inner) ∨ t.demands.contains B.digest = true

theorem demands_request (author : PublicKey) (digest : Digest) (block : Option Block) (failed : Bool) (now : Nat) :
    (t.request author digest block failed now).demands = t.demands ∨
      (t.request author digest block failed now).demands = (t.wait digest block now).demands := by
  unfold request sendRequest
  split_ifs
  · exact .inl rfl
  · exact .inl rfl
  · split <;> exact .inr rfl

omit [Crypto] in
theorem contains_demand {demands : Map Digest (HashSet Digest)} (b d : Digest) (h : demands.contains x = true) :
    (demand demands b d).contains x = true := by
  unfold Map.contains at h ⊢
  rw [get?_demand]
  split
  · rfl
  · exact h

theorem contains_request (h : t.demands.contains x = true) (author : PublicKey) (digest : Digest) (block : Option Block)
    (failed : Bool) (now : Nat) : (t.request author digest block failed now).demands.contains x = true := by
  rcases demands_request (t := t) author digest block failed now with same | waits
  · rwa [same]
  · rw [waits]
    cases block with
    | none => exact h
    | some b => exact contains_demand b.digest digest h

/-- A request whose digest is neither stored nor pending enters the block. -/
theorem request_contains (b : Block) (author : PublicKey) {failed : Bool}
    (missing : (failed || !t.store.contains digest) = true) (fresh : t.pending.contains digest = false) (now : Nat) :
    (t.request author digest (some b) failed now).demands.contains b.digest = true := by
  have enters : (t.wait digest (some b) now).demands.contains b.digest = true := by
    change (demand t.demands b.digest digest).contains b.digest = true
    unfold Map.contains
    rw [get?_demand, if_pos rfl]
    rfl
  unfold request sendRequest
  split_ifs with stored pending
  · cases failed <;> simp_all
  · rw [fresh] at pending
    contradiction
  · split <;> exact enters

theorem HeldUp.receive [Bincode] {failed : Bool} {now : Nat} (held : t.HeldUp B) (ok : t.registers B (.receive failed now) = true) :
    (t.task (.receive failed now)).HeldUp B := by
  unfold registers at ok
  unfold task
  dsimp only at ok ⊢
  cases queue : t.inner with
  | nil => exact held
  | cons entry rest =>
      obtain ⟨author, digest, block⟩ := entry
      dsimp only
      rw [queue] at ok
      rcases held with ⟨author', digest', mem⟩ | entered
      · rw [queue] at mem
        rcases List.mem_cons.mp mem with head | later
        · obtain ⟨rfl, rfl, rfl⟩ := head
          simp only [ne_eq, not_true_eq_false, decide_false, Bool.false_or, decide_true, Bool.true_and, Bool.or_eq_true,
            Bool.and_eq_true, Bool.not_eq_true'] at ok
          rcases ok with entered | ⟨missing, fresh⟩
          · exact .inr (contains_request (t := { t with inner := rest }) entered _ _ _ _ _)
          · refine .inr (request_contains (t := { t with inner := rest }) B _ ?_ fresh now)
            simpa using missing
        · refine .inl ⟨author', digest', ?_⟩
          rw [request_inner]
          exact later
      · exact .inr (contains_request (t := { t with inner := rest }) entered _ _ _ _ _)

/-- The step sends the block to the core. -/
def Resumes [Bincode] (t : SyncTask) (input : SyncInput) (B : Block) : Prop := (t.step input).log = t.log ++ [.loopBack B]

theorem HeldUp.resume (held : t.HeldUp B) {b : Block} (named : b.digest = B.digest → b = B) (received : Digest) :
    (t.resume b received).HeldUp B ∨ (t.resume b received).log = t.log ++ [.loopBack B] := by
  unfold SyncTask.resume
  dsimp only
  split
  · exact .inl held
  · next digests found =>
      by_cases same : b.digest = B.digest
      · split
        · exact .inr (by rw [named same])
        · refine .inl (.inr ?_)
          unfold Map.contains
          dsimp only
          rw [same, Map.get?_insert_self]
          rfl
      · left
        rcases held with queued | entered
        · split <;> exact .inl queued
        · right
          unfold Map.contains at entered ⊢
          split
          · rwa [Map.get?_remove_ne _ same]
          · rwa [Map.get?_insert_ne _ _ same]

theorem HeldUp.finish [Bincode] (held : t.HeldUp B) (h : t.Tracks B) {place : Nat} (found : t.waiting[place]? = some w)
    (value : Value) : (t.finish place w value).HeldUp B ∨ (t.finish place w value).log = t.log ++ [.loopBack B] := by
  unfold SyncTask.finish
  split
  · exact .inl held
  · next received _ =>
      dsimp only
      cases block : w.block with
      | none => exact .inl held
      | some b =>
          have named := h.named w (List.mem_of_getElem? found) b block
          exact HeldUp.resume (t := { t.drop place with pending := t.pending.remove received.digest }) held named _

/-- A step ends the hold only by sending the block to the core. -/
theorem HeldUp.step [Bincode] {input : SyncInput} (held : t.HeldUp B) (h : t.Tracks B) (ok : t.registers B input = true) :
    (t.step input).HeldUp B ∨ t.Resumes input B := by
  have tasks (next : (t.task input).HeldUp B ∨ (t.task input).log = t.log ++ [.loopBack B]) :
      (if t.alive then t.task input else t).HeldUp B ∨
        (if t.alive then t.task input else t).log = t.log ++ [.loopBack B] := by
    split
    · exact next
    · exact .inl held
  cases input with
  | getBlock author digest block failed =>
      left
      change (t.getBlock author digest block failed).HeldUp B
      unfold SyncTask.getBlock
      split
      · exact held
      · rcases held with ⟨author', digest', mem⟩ | entered
        · exact .inl ⟨author', digest', List.mem_append_left _ mem⟩
        · exact .inr entered
  | write digest value => exact .inl held
  | receive failed now => exact tasks (.inl (held.receive ok))
  | finish place value =>
      refine tasks ?_
      unfold SyncTask.task
      dsimp only
      split
      · next w found =>
          split
          · exact held.finish h found value
          · exact .inl held
      · exact .inl held
  | fail place | tick now => exact tasks (.inl held)

theorem task_log [Bincode] (input : SyncInput) : ∃ more, (t.task input).log = t.log ++ more := by
  have still : ∃ more, t.log = t.log ++ more := ⟨[], (List.append_nil _).symm⟩
  cases input with
  | receive failed now =>
      unfold task
      cases t.inner with
      | nil => exact still
      | cons entry rest =>
          dsimp only
          unfold request sendRequest
          split_ifs
          · exact still
          · exact still
          · split
            · exact ⟨_, rfl⟩
            · exact still
  | finish place value =>
      unfold task finish resume
      dsimp only
      split
      · split_ifs
        · split
          · exact still
          · split
            · split
              · exact still
              · split
                · exact ⟨_, rfl⟩
                · exact still
            · exact still
        · exact still
      · exact still
  | tick now => exact ⟨_, rfl⟩
  | fail place | getBlock author digest block failed | write digest value => exact still

theorem step_log [Bincode] (input : SyncInput) : ∃ more, (t.step input).log = t.log ++ more := by
  have still : ∃ more, t.log = t.log ++ more := ⟨[], (List.append_nil _).symm⟩
  have tasks : ∃ more, (if t.alive then t.task input else t).log = t.log ++ more := by
    split
    · exact task_log input
    · exact still
  cases input with
  | getBlock author digest block failed =>
      change ∃ more, (t.getBlock author digest block failed).log = t.log ++ more
      unfold getBlock
      split <;> exact still
  | write digest value => exact still
  | receive failed now | finish place value | fail place | tick now => exact tasks

/-! ## Runs -/

/-- The run sends the block to the core. -/
def Resumed [Bincode] (t : SyncTask) (inputs : List SyncInput) (B : Block) : Prop :=
  ∃ more, (t.run inputs).log = t.log ++ more ∧ .loopBack B ∈ more

/-- No request for the block is on its way, and no waiter of it is left. -/
structure Settled (t : SyncTask) (B : Block) : Prop where
  received : ∀ request ∈ t.inner, request.2.2 ≠ some B
  completed : ∀ w ∈ t.waiting, w.block ≠ some B

theorem run_log [Bincode] (inputs : List SyncInput) : ∃ more, (t.run inputs).log = t.log ++ more := by
  induction inputs generalizing t with
  | nil => exact ⟨[], (List.append_nil _).symm⟩
  | cons input rest ih =>
      obtain ⟨more, log⟩ := step_log (t := t) input
      obtain ⟨more', log'⟩ := ih (t := t.step input)
      refine ⟨more ++ more', ?_⟩
      rw [← List.append_assoc, ← log]
      exact log'

theorem keeps_append [Bincode] (inputs inputs' : List SyncInput) :
    t.keeps B (inputs ++ inputs') = (t.keeps B inputs && (t.run inputs).keeps B inputs') := by
  induction inputs generalizing t with
  | nil => rfl
  | cons input rest ih =>
      rw [List.cons_append, keeps, keeps, ih, Bool.and_assoc]
      rfl

theorem Tracks.run [Bincode] {inputs : List SyncInput} (h : t.Tracks B) (ok : t.keeps B inputs = true) : (t.run inputs).Tracks B := by
  induction inputs generalizing t with
  | nil => exact h
  | cons input rest ih =>
      rw [keeps, Bool.and_eq_true] at ok
      exact ih (h.step ok.1) ok.2

/-- A block in `demands` has a waiter. -/
theorem HeldUp.not_settled (held : t.HeldUp B) (h : t.Tracks B) : ¬ t.Settled B := by
  rintro ⟨received, completed⟩
  rcases held with ⟨author, digest, mem⟩ | entered
  · exact received _ mem rfl
  · obtain ⟨ds, demands⟩ := Option.isSome_iff_exists.mp entered
    obtain ⟨filled, backed⟩ := h.backed ds demands
    obtain ⟨d, mem⟩ := List.exists_mem_of_ne_nil _ (List.isEmpty_eq_false_iff.mp filled)
    obtain ⟨w, waiting, -, holds⟩ := backed d mem
    exact completed w waiting holds

/-- A block that is held up is sent to the core before its last waiter is gone. -/
theorem HeldUp.run [Bincode] {inputs : List SyncInput} (held : t.HeldUp B) (h : t.Tracks B) (ok : t.keeps B inputs = true)
    (settled : (t.run inputs).Settled B) : t.Resumed inputs B := by
  induction inputs generalizing t with
  | nil => exact absurd settled (held.not_settled h)
  | cons input rest ih =>
      rw [keeps, Bool.and_eq_true] at ok
      rcases held.step h ok.1 with still | resumes
      · obtain ⟨more, log⟩ := step_log (t := t) input
        obtain ⟨more', log', mem⟩ := ih still (h.step ok.1) ok.2 settled
        refine ⟨more ++ more', ?_, List.mem_append_right _ mem⟩
        rw [← List.append_assoc, ← log]
        exact log'
      · obtain ⟨more, log⟩ := run_log (t := t.step input) rest
        refine ⟨.loopBack B :: more, ?_, List.mem_cons_self⟩
        refine log.trans ?_
        rw [show (t.step input).log = _ from resumes, List.append_assoc]
        rfl

/-- When the requests for a block have been received and their waiters have ended, the block has been
sent to the core. -/
theorem no_lost_resume [Bincode] (name : PublicKey) (committee : Committee) (store : Store) (delay : Nat)
    (before after : List SyncInput) (author : PublicKey) (digest : Digest) (B : Block)
    (ok : (new name committee store delay).keeps B (before ++ .getBlock author digest (some B) false :: after) = true)
    (unknown : digest ≠ QC.genesis.hash)
    (missing : ((new name committee store delay).run before).store.contains digest = false)
    (settled : (((new name committee store delay).run before).run
      (.getBlock author digest (some B) false :: after)).Settled B) :
    ((new name committee store delay).run before).Resumed (.getBlock author digest (some B) false :: after) B := by
  rw [keeps_append, Bool.and_eq_true] at ok
  obtain ⟨earlier, later⟩ := ok
  rw [keeps, Bool.and_eq_true] at later
  have tracks := (tracks_new name committee store delay B).run earlier
  have asked : (((new name committee store delay).run before).step (.getBlock author digest (some B) false)).inner =
      ((new name committee store delay).run before).inner ++ [(author, digest, some B)] := by
    change (((new name committee store delay).run before).getBlock author digest (some B) false).inner = _
    unfold getBlock
    rw [if_neg (by simp [unknown, missing])]
  have held : (((new name committee store delay).run before).step (.getBlock author digest (some B) false)).HeldUp B := by
    refine .inl ⟨author, digest, ?_⟩
    rw [asked]
    exact List.mem_append_right _ List.mem_cons_self
  obtain ⟨more, log, mem⟩ := held.run (tracks.step later.1) later.2 settled
  refine ⟨more, ?_, mem⟩
  have same : (((new name committee store delay).run before).step (.getBlock author digest (some B) false)).log =
      ((new name committee store delay).run before).log := by
    change (((new name committee store delay).run before).getBlock author digest (some B) false).log = _
    unfold getBlock
    split <;> rfl
  rw [← same]
  exact log

end SyncTask
end HotstuffDag

namespace HotstuffDag.Sample
open Library

theorem parent_resumes : syncTask.Resumed (requestParent :: arrival) heldBlock := by
  have kept : syncTask.keeps heldBlock ([] ++ requestParent :: arrival) = true := by decide +kernel
  have unknown : missingBlock.digest ≠ QC.genesis.hash := by decide +kernel
  have missing : (syncTask.run []).store.contains missingBlock.digest = false := by decide +kernel
  have received : (syncTask.run (requestParent :: arrival)).inner = [] := by decide +kernel
  have completed : (syncTask.run (requestParent :: arrival)).waiting = [] := by decide +kernel
  have settled : (syncTask.run (requestParent :: arrival)).Settled heldBlock := by
    refine ⟨?_, ?_⟩
    · rw [received]
      simp
    · rw [completed]
      simp
  exact SyncTask.no_lost_resume (key 2) four Map.empty 10000 [] arrival (key 1) missingBlock.digest heldBlock kept unknown
    missing settled

/-- The core misses the block while it commits, and again when its child is proposed. -/
def racingRequests : List SyncInput :=
  [.getBlock (key 2) missingBlock.digest none false, .receive false 0,
    .getBlock (key 1) missingBlock.digest (some heldBlock) false, .receive false 0,
    .write missingBlock.digest (.block missingBlock), .finish 0 (.block missingBlock)]

theorem resume_lost :
    (syncTask.run (racingRequests.take 2)).store.contains missingBlock.digest = false ∧
      missingBlock.digest ≠ QC.genesis.hash ∧ (syncTask.run racingRequests).Settled heldBlock ∧
      (syncTask.run racingRequests).inner = [] ∧ (syncTask.run racingRequests).waiting = [] ∧
      (syncTask.run racingRequests).store.contains missingBlock.digest = true ∧
      (syncTask.run racingRequests).alive = true ∧ .loopBack heldBlock ∉ (syncTask.run racingRequests).log := by
  have received : (syncTask.run racingRequests).inner = [] := by decide +kernel
  have completed : (syncTask.run racingRequests).waiting = [] := by decide +kernel
  refine ⟨?_, ?_, ⟨?_, ?_⟩, received, completed, ?_, ?_, ?_⟩
  · decide +kernel
  · decide +kernel
  · rw [received]
    simp
  · rw [completed]
    simp
  · decide +kernel
  · decide +kernel
  · decide +kernel

end HotstuffDag.Sample
