import Sam.Detail.MutexImpl

/-!
# `shared_mutex_impl`

The critical sections of `detail/shared_mutex_impl.hpp`, `detail/impl/shared_mutex_impl.ipp` and
`impl/basic_shared_mutex.hpp`. An op is in `waiters` or in `sharedWaiters`; unlinking it takes it
out of the list it is in. `Asks` says what the six requests may do to the state, and the `unlock`
lemmas say what the two releases do. -/

namespace Sam

universe u

/-- Which kind of lock a request asks for. -/
inductive Mode where
  | exclusive
  | shared
  deriving DecidableEq, Repr

/-- A mutex with a count of shared locks and a second waiter list. -/
structure SharedMutexImpl (ι : Type u) extends MutexImpl ι where
  lockedShared : Nat
  sharedWaiters : List ι
  deriving DecidableEq, Repr

namespace SharedMutexImpl

variable {ι : Type u}

/-- A new shared mutex. -/
def init (enabled : Bool) : SharedMutexImpl ι := ⟨.init enabled, 0, []⟩

/-- `add_waiter`. -/
def addWaiter (m : SharedMutexImpl ι) (waiter : ι) : SharedMutexImpl ι :=
  { m with toMutexImpl := m.toMutexImpl.addWaiter waiter }

/-- `add_shared_waiter`. -/
def addSharedWaiter (m : SharedMutexImpl ι) (waiter : ι) : SharedMutexImpl ι :=
  { m with sharedWaiters := m.sharedWaiters ++ [waiter] }

/-- `try_lock`. -/
def tryLock (m : SharedMutexImpl ι) : Result (SharedMutexImpl ι) ι :=
  if m.locked || decide (0 < m.lockedShared) then { state := m, outcome := .refused }
  else { state := { m with locked := true }, outcome := .granted }

/-- `try_lock_shared`. -/
def tryLockShared (m : SharedMutexImpl ι) : Result (SharedMutexImpl ι) ι :=
  if m.locked then { state := m, outcome := .refused }
  else { state := { m with lockedShared := m.lockedShared + 1 }, outcome := .granted }

/-- `async_lock_op`. -/
def asyncLock (m : SharedMutexImpl ι) (op : ι) : Result (SharedMutexImpl ι) ι :=
  if !m.locked && m.lockedShared == 0 then
    { state := { m with locked := true }, outcome := .granted }
  else { state := m.addWaiter op, outcome := .queued }

/-- `async_lock_shared_op`. -/
def asyncLockShared (m : SharedMutexImpl ι) (op : ι) : Result (SharedMutexImpl ι) ι :=
  if !m.locked then
    { state := { m with lockedShared := m.lockedShared + 1 }, outcome := .granted }
  else { state := m.addSharedWaiter op, outcome := .queued }

variable [DecidableEq ι]

/-- `unlink` of a queued op. -/
def unlink (m : SharedMutexImpl ι) (op : ι) : SharedMutexImpl ι :=
  { m with waiters := m.waiters.erase op, sharedWaiters := m.sharedWaiters.erase op }

/-- `lock`. -/
def lock (m : SharedMutexImpl ι) (op : ι) : Result (SharedMutexImpl ι) ι :=
  if !m.enabled then
    match m.tryLock.outcome with
    | .granted => m.tryLock
    | _ => { state := m, outcome := .failed .inProgress }
  else
    let queued := m.addWaiter op
    if !queued.locked && queued.lockedShared == 0 then
      { state := { queued with locked := true }.unlink op, outcome := .granted }
    else { state := queued, outcome := .queued }

/-- `lock_shared`. It queues its op with `add_waiter`, in the list of the exclusive requests. -/
def lockShared (m : SharedMutexImpl ι) (op : ι) : Result (SharedMutexImpl ι) ι :=
  if !m.enabled then
    match m.tryLockShared.outcome with
    | .granted => m.tryLockShared
    | _ => { state := m, outcome := .failed .inProgress }
  else
    let queued := m.addWaiter op
    if !queued.locked then
      { state := { queued with lockedShared := queued.lockedShared + 1 }.unlink op,
        outcome := .granted }
    else { state := queued, outcome := .queued }

/-- The loop of `unlock` over the shared waiters: count each one and complete it. -/
def wakeShared (m : SharedMutexImpl ι) : List ι → SharedMutexImpl ι
  | [] => m
  | op :: rest => wakeShared ({ m with lockedShared := m.lockedShared + 1 }.unlink op) rest

/-- `unlock`: wakes all shared waiters, or hands the lock to the first exclusive one. -/
def unlock (m : SharedMutexImpl ι) : Result (SharedMutexImpl ι) ι :=
  match m.sharedWaiters with
  | _ :: _ =>
      { state := wakeShared { m with locked := false } m.sharedWaiters, outcome := .returned,
        completed := m.sharedWaiters }
  | [] =>
      match m.waiters with
      | [] => { state := { m with locked := false }, outcome := .returned }
      | op :: _ => { state := m.unlink op, outcome := .returned, completed := [op] }

/-- `unlock_shared`: the last shared lock hands over to the first exclusive waiter. -/
def unlockShared (m : SharedMutexImpl ι) : Result (SharedMutexImpl ι) ι :=
  let released := if 0 < m.lockedShared then { m with lockedShared := m.lockedShared - 1 } else m
  if released.lockedShared == 0 then
    match released.waiters with
    | [] => { state := released, outcome := .returned }
    | op :: _ =>
        { state := { released with locked := true }.unlink op, outcome := .returned,
          completed := [op] }
  else { state := released, outcome := .returned }

/-! ## What the requests do -/

/-- What a request of this mode may do, by its outcome. -/
inductive Asks (m : SharedMutexImpl ι) (op : ι) : Mode → Outcome → SharedMutexImpl ι → Prop where
  | locked (hfree : m.locked = false) (hshared : m.lockedShared = 0) :
      Asks m op .exclusive .granted { m with locked := true }
  | shared (hfree : m.locked = false) :
      Asks m op .shared .granted { m with lockedShared := m.lockedShared + 1 }
  | queued (mode : Mode) : Asks m op mode .queued (m.addWaiter op)
  | queuedShared : Asks m op .shared .queued (m.addSharedWaiter op)
  | refused (mode : Mode) : Asks m op mode .refused m
  | failed (mode : Mode) (ec : ErrorCode) : Asks m op mode (.failed ec) m

variable {m : SharedMutexImpl ι} {op : ι}

omit [DecidableEq ι] in
/-- `try_lock` locks a free mutex, or refuses. -/
theorem tryLock_asks : Asks m op .exclusive m.tryLock.outcome m.tryLock.state := by
  unfold tryLock
  split
  · exact .refused _
  · rename_i h
    simp only [Bool.or_eq_true, decide_eq_true_eq, not_or, Bool.not_eq_true] at h
    exact .locked h.1 (by omega)

omit [DecidableEq ι] in
/-- `try_lock_shared` joins the shared holders, or refuses. -/
theorem tryLockShared_asks : Asks m op .shared m.tryLockShared.outcome m.tryLockShared.state := by
  unfold tryLockShared
  split
  · exact .refused _
  · rename_i h
    exact .shared (by simpa using h)

omit [DecidableEq ι] in
/-- `async_lock_op` locks a free mutex, or waits. -/
theorem asyncLock_asks : Asks m op .exclusive (m.asyncLock op).outcome (m.asyncLock op).state := by
  unfold asyncLock
  split
  · rename_i h
    simp only [Bool.and_eq_true, Bool.not_eq_true', beq_iff_eq] at h
    exact .locked h.1 h.2
  · exact .queued _

omit [DecidableEq ι] in
/-- `async_lock_shared_op` joins the shared holders, or waits with the shared requests. -/
theorem asyncLockShared_asks :
    Asks m op .shared (m.asyncLockShared op).outcome (m.asyncLockShared op).state := by
  unfold asyncLockShared
  split
  · rename_i h
    exact .shared (by simpa using h)
  · exact .queuedShared

/-- Unlinking an op that was just queued leaves the mutex as it was. -/
theorem unlink_addWaiter (hop : op ∉ m.waiters ++ m.sharedWaiters) :
    (m.addWaiter op).unlink op = m := by
  simp only [List.mem_append, not_or] at hop
  simp [addWaiter, MutexImpl.addWaiter, unlink, List.erase_append_right _ hop.1,
    List.erase_of_not_mem hop.2]

/-- `lock` on a free mutex takes it and leaves the waiters alone. -/
theorem lock_of_free (hop : op ∉ m.waiters ++ m.sharedWaiters) (hfree : m.locked = false)
    (hshared : m.lockedShared = 0) :
    m.lock op = { state := { m with locked := true }, outcome := .granted } := by
  have hback : { m.addWaiter op with locked := true }.unlink op = { m with locked := true } :=
    congrArg (fun n => { n with locked := true }) (unlink_addWaiter hop)
  cases hmode : m.enabled with
  | false => simp [lock, tryLock, hmode, hfree, hshared]
  | true =>
      have hcond : (!(m.addWaiter op).locked && (m.addWaiter op).lockedShared == 0) = true := by
        simp [addWaiter, MutexImpl.addWaiter, hfree, hshared]
      simp only [lock, hmode, Bool.not_true, Bool.false_eq_true, if_false, hcond, if_true, hback]

/-- `lock` on a mutex with holders waits, or fails in single-threaded mode. -/
theorem lock_of_taken (htaken : m.locked = true ∨ 0 < m.lockedShared) :
    m.lock op = if m.enabled then { state := m.addWaiter op, outcome := .queued }
      else { state := m, outcome := .failed .inProgress } := by
  have hcond : (!(m.addWaiter op).locked && (m.addWaiter op).lockedShared == 0) = false := by
    simpa [addWaiter, MutexImpl.addWaiter, imp_iff_or_not, Nat.pos_iff_ne_zero, or_comm]
      using htaken
  cases hmode : m.enabled with
  | false => simp [lock, tryLock, hmode, htaken]
  | true =>
      simp only [lock, hmode, Bool.not_true, Bool.false_eq_true, if_false, hcond, if_true]

/-- `lock` locks a free mutex, waits, or fails in single-threaded mode. -/
theorem lock_asks (hop : op ∉ m.waiters ++ m.sharedWaiters) :
    Asks m op .exclusive (m.lock op).outcome (m.lock op).state := by
  by_cases htaken : m.locked = true ∨ 0 < m.lockedShared
  · rw [lock_of_taken htaken]
    cases m.enabled with
    | false => exact .failed _ _
    | true => exact .queued _
  · have hfree : m.locked = false ∧ m.lockedShared = 0 := by simpa using htaken
    rw [lock_of_free hop hfree.1 hfree.2]
    exact .locked hfree.1 hfree.2

/-- `lock_shared` without an exclusive holder joins the shared ones and leaves the waiters alone. -/
theorem lockShared_of_free (hop : op ∉ m.waiters ++ m.sharedWaiters) (hfree : m.locked = false) :
    m.lockShared op =
      { state := { m with lockedShared := m.lockedShared + 1 }, outcome := .granted } := by
  have hback : { m.addWaiter op with lockedShared := (m.addWaiter op).lockedShared + 1 }.unlink op =
      { m with lockedShared := m.lockedShared + 1 } :=
    congrArg (fun n => { n with lockedShared := n.lockedShared + 1 }) (unlink_addWaiter hop)
  cases hmode : m.enabled with
  | false => simp [lockShared, tryLockShared, hmode, hfree]
  | true =>
      have hcond : (!(m.addWaiter op).locked) = true := by
        simp [addWaiter, MutexImpl.addWaiter, hfree]
      simp only [lockShared, hmode, Bool.not_true, Bool.false_eq_true, if_false, hcond, if_true,
        hback]

/-- `lock_shared` with an exclusive holder waits with the exclusive requests, or fails in
single-threaded mode. -/
theorem lockShared_of_locked (hlocked : m.locked = true) :
    m.lockShared op = if m.enabled then { state := m.addWaiter op, outcome := .queued }
      else { state := m, outcome := .failed .inProgress } := by
  have hcond : (!(m.addWaiter op).locked) = false := by
    simp [addWaiter, MutexImpl.addWaiter, hlocked]
  cases hmode : m.enabled with
  | false => simp [lockShared, tryLockShared, hmode, hlocked]
  | true =>
      simp only [lockShared, hmode, Bool.not_true, Bool.false_eq_true, if_false, hcond, if_true]

/-- `lock_shared` joins the shared holders, waits with the exclusive requests, or fails in
single-threaded mode. -/
theorem lockShared_asks (hop : op ∉ m.waiters ++ m.sharedWaiters) :
    Asks m op .shared (m.lockShared op).outcome (m.lockShared op).state := by
  cases hlocked : m.locked with
  | false =>
      rw [lockShared_of_free hop hlocked]
      exact .shared hlocked
  | true =>
      rw [lockShared_of_locked hlocked]
      cases m.enabled with
      | false => exact .failed _ _
      | true => exact .queued _

/-! ## What the releases do -/

/-- The loop counts every shared waiter and empties the list. -/
theorem wakeShared_eq {line : List ι} (hline : m.sharedWaiters = line) (hnodup : line.Nodup)
    (hdisj : ∀ w ∈ line, w ∉ m.waiters) :
    m.wakeShared line =
      { m with lockedShared := m.lockedShared + line.length, sharedWaiters := [] } := by
  induction line generalizing m with
  | nil => cases m; simp_all [wakeShared]
  | cons op rest ih =>
      have hop : m.waiters.erase op = m.waiters :=
        List.erase_of_not_mem (hdisj op (List.mem_cons_self ..))
      rw [wakeShared, ih]
      · simp only [unlink, hop, List.length_cons]
        congr 1
        omega
      · simp [unlink, hline]
      · exact (List.nodup_cons.mp hnodup).2
      · intro w hw
        simpa [unlink, hop] using hdisj w (List.mem_cons_of_mem _ hw)

/-- With shared waiters, `unlock` turns the exclusive lock into a shared lock for all of them. -/
theorem unlock_of_shared (hnodup : (m.waiters ++ m.sharedWaiters).Nodup)
    (hshared : m.sharedWaiters ≠ []) :
    m.unlock =
      { state := { m with
          locked := false
          lockedShared := m.lockedShared + m.sharedWaiters.length
          sharedWaiters := [] }
        outcome := .returned
        completed := m.sharedWaiters } := by
  obtain ⟨-, hline, hdisj⟩ := List.nodup_append.mp hnodup
  have hwake := wakeShared_eq (m := { m with locked := false }) rfl hline
    (fun w hw hmem => hdisj w hmem w hw rfl)
  unfold unlock
  split
  · rw [hwake]
  · contradiction

/-- With no waiters at all, `unlock` frees the lock. -/
theorem unlock_of_none (hshared : m.sharedWaiters = []) (hwaiters : m.waiters = []) :
    m.unlock = { state := { m with locked := false }, outcome := .returned } := by
  unfold unlock
  simp only [hshared, hwaiters]

/-- With exclusive waiters only, `unlock` hands the lock to the first one. -/
theorem unlock_of_waiter {rest : List ι} (hshared : m.sharedWaiters = [])
    (hwaiters : m.waiters = op :: rest) :
    m.unlock =
      { state := { m with waiters := rest }
        outcome := .returned
        completed := [op] } := by
  unfold unlock
  split <;> simp_all [unlink]

/-- `unlock_shared` by the number of shared locks. It does not count below zero. -/
theorem unlockShared_eq : m.unlockShared =
    if m.lockedShared ≤ 1 then
      match m.waiters with
      | [] => { state := { m with lockedShared := 0 }, outcome := .returned }
      | op :: _ =>
          { state := { m with locked := true, lockedShared := 0 }.unlink op
            outcome := .returned
            completed := [op] }
    else { state := { m with lockedShared := m.lockedShared - 1 }, outcome := .returned } := by
  rcases Nat.lt_trichotomy m.lockedShared 1 with hzero | hone | hmore
  · have hcount : m.lockedShared = 0 := by omega
    have hsame : { m with lockedShared := 0 } = m := by rw [← hcount]
    simp [unlockShared, hcount, hsame]
  · simp [unlockShared, hone]
  · have hpos : 0 < m.lockedShared := by omega
    have hleft : ¬ m.lockedShared ≤ 1 := by omega
    have hmany : m.lockedShared - 1 ≠ 0 := by omega
    simp [unlockShared, hpos, hleft, hmany]

/-- While shared locks remain, `unlock_shared` counts down. -/
theorem unlockShared_of_more (hmore : 1 < m.lockedShared) :
    m.unlockShared =
      { state := { m with lockedShared := m.lockedShared - 1 }, outcome := .returned } := by
  have hpos : 0 < m.lockedShared := by omega
  have hleft : m.lockedShared - 1 ≠ 0 := by omega
  simp [unlockShared, hpos, hleft]

/-- The last `unlock_shared` without exclusive waiters frees the mutex. -/
theorem unlockShared_of_none (hlast : m.lockedShared = 1) (hwaiters : m.waiters = []) :
    m.unlockShared = { state := { m with lockedShared := 0 }, outcome := .returned } := by
  simp [unlockShared, hlast, hwaiters]

/-- The last `unlock_shared` hands the exclusive lock to the first exclusive waiter. -/
theorem unlockShared_of_waiter {rest : List ι} (hnodup : (m.waiters ++ m.sharedWaiters).Nodup)
    (hlast : m.lockedShared = 1) (hwaiters : m.waiters = op :: rest) :
    m.unlockShared =
      { state := { m with locked := true, lockedShared := 0, waiters := rest }
        outcome := .returned
        completed := [op] } := by
  have hop : op ∉ m.sharedWaiters := fun hmem =>
    (List.nodup_append.mp hnodup).2.2 op (by simp [hwaiters]) op hmem rfl
  simp [unlockShared, hlast, hwaiters, unlink, List.erase_of_not_mem hop]

end SharedMutexImpl

end Sam
