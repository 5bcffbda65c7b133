import MeshwardenDaemon.Library.LockOrder

/-! The locks of the daemon and the tasks that take them: the channel tracker's and the
backfill's, the command slot, and the write lock of every proxy client. Between its locks a
task waits for the node, the database, a client that reads, or a timer, and each of these comes
by itself: an answer reaches the queue of a raw command, and the library, on a task that takes
no lock. -/
namespace MeshwardenDaemon.Locks
open Library LockOrder

inductive Lock
  | tracker
  | backfill
  | command
  | write (client : ℕ)
  deriving DecidableEq

def rank : Lock → ℕ
  | .tracker | .backfill => 0
  | .command => 1
  | .write _ => 2

def sendFrame (client : ℕ) : List (Op Lock) := locked (.write client) [.await]

def command : List (Op Lock) := locked .command [.await]

/-- `DeviceManager.raw_command`: `send`, then a `get` for every response, which is handed on
while the slot is held. -/
def rawCommand (onFrame : Option ℕ) (responses : ℕ) : List (Op Lock) :=
  locked .command (.await ::
    (List.replicate responses (.await :: (onFrame.map sendFrame).getD [])).flatten)

def readSlot : List (Op Lock) := command ++ [.await]

def refresh (maxChannels : ℕ) : List (Op Lock) :=
  locked .tracker (command ++ (List.replicate maxChannels readSlot).flatten ++ [.await]) ++ [.await]

/-- `ChannelBackfill.run`, which waits for the database alone. -/
def backfillRun (awaits : ℕ) : List (Op Lock) := locked .backfill (List.replicate awaits .await)

/-- The tasks of the daemon; how often they wait depends on what they find. -/
inductive Work
  /-- `_handle_command`: the frame is logged, then answered from the cache or by the node. -/
  | handleCommand (client : ℕ) (cached : Bool) (responses : ℕ)
  /-- Its answer when the device is not connected. -/
  | unavailable (client : ℕ)
  /-- A push goes to the clients; after a failed one, to those that are left. -/
  | onDeviceFrame (clients : List ℕ)
  /-- Library commands with waits in between: the pump, the contact sync, gRPC calls. -/
  | commands (n : ℕ)
  | sendRawCommand (responses : ℕ)
  | syncAndBackfill (maxChannels awaits : ℕ)
  | resyncSlot
  | listChannels (maxChannels : ℕ)
  | backfillMessageChannels (extraChannels awaits : ℕ)
  /-- The recorder's handlers, retention and the other tasks that take no lock. -/
  | other (awaits : ℕ)
  deriving DecidableEq

def Work.script : Work → List (Op Lock)
  | .handleCommand client true responses =>
    .await :: (List.replicate responses (sendFrame client)).flatten
  | .handleCommand client false responses => .await :: rawCommand (some client) responses
  | .unavailable client => sendFrame client
  | .onDeviceFrame clients => (clients.map sendFrame).flatten
  | .commands n => (List.replicate n (.await :: command)).flatten
  | .sendRawCommand responses => rawCommand none responses
  | .syncAndBackfill maxChannels awaits => refresh maxChannels ++ backfillRun awaits
  | .resyncSlot => locked .tracker readSlot
  | .listChannels maxChannels => refresh maxChannels
  | .backfillMessageChannels extraChannels awaits =>
    List.replicate extraChannels .await ++ backfillRun awaits
  | .other awaits => List.replicate awaits .await

section scripts
variable {held : List Lock}

theorem waits_block (n : ℕ) : Block rank held (List.replicate n .await) := by
  induction n with
  | zero => exact Block.nil
  | succ n ih => exact ih.await

theorem repeated_block {body : List (Op Lock)} (h : Block rank held body) (n : ℕ) :
    Block rank held (List.replicate n body).flatten :=
  Block.flatten fun _ hb => List.eq_of_mem_replicate hb ▸ h

theorem sendFrame_block (client : ℕ) (below : ∀ h ∈ held, rank h < 2) :
    Block rank held (sendFrame client) :=
  Block.locked below Block.nil.await

theorem command_block (below : ∀ h ∈ held, rank h < 1) : Block rank held command :=
  Block.locked below Block.nil.await

theorem rawCommand_block (onFrame : Option ℕ) (responses : ℕ) :
    Block rank [] (rawCommand onFrame responses) := by
  refine Block.locked (by simp) (Block.await (repeated_block (Block.await ?_) responses))
  cases onFrame with
  | none => exact Block.nil
  | some client => exact sendFrame_block client (by simp [rank])

theorem readSlot_block : Block rank [.tracker] readSlot :=
  (command_block (by simp [rank])).append Block.nil.await

theorem refresh_block (maxChannels : ℕ) : Block rank [] (refresh maxChannels) := by
  refine (Block.locked (by simp) ?_).append Block.nil.await
  refine Block.append (Block.append ?_ (repeated_block readSlot_block maxChannels)) Block.nil.await
  exact command_block (by simp [rank])

theorem backfillRun_block (awaits : ℕ) : Block rank [] (backfillRun awaits) :=
  Block.locked (by simp) (waits_block awaits)

/-- Every task takes the tracker's lock or the backfill's before the command slot, and the
slot before a write lock. -/
theorem script_block (work : Work) : Block rank [] work.script := by
  cases work with
  | handleCommand client cached responses =>
    cases cached with
    | true => exact (repeated_block (sendFrame_block client (by simp)) responses).await
    | false => exact (rawCommand_block (some client) responses).await
  | unavailable client => exact sendFrame_block client (by simp)
  | onDeviceFrame clients =>
    refine Block.flatten fun body hb => ?_
    obtain ⟨client, -, rfl⟩ := List.mem_map.mp hb
    exact sendFrame_block client (by simp)
  | commands n => exact repeated_block (command_block (by simp)).await n
  | sendRawCommand responses => exact rawCommand_block none responses
  | syncAndBackfill maxChannels awaits =>
    exact (refresh_block maxChannels).append (backfillRun_block awaits)
  | resyncSlot => exact Block.locked (by simp) readSlot_block
  | listChannels maxChannels => exact refresh_block maxChannels
  | backfillMessageChannels extraChannels awaits =>
    exact (waits_block extraChannels).append (backfillRun_block awaits)
  | other awaits => exact waits_block awaits

end scripts

/-- Whatever tasks there are, in whatever order they have come to where they are, and whichever
of their statements have raised: from there on the tasks can make no more statements than they
have before them, and when none of them can make one, all have ended and every lock is free. -/
theorem tasks_never_deadlock (acts : List (Action Work)) (s : List (Worker Lock))
    (hrun : Runs.run (step Work.script) [] acts = some s) (more : List (Action Work))
    (t : List (Worker Lock)) (hmore : Runs.run (step Work.script) s more = some t)
    (goes : Runs.Along (step Work.script) Goes s more) :
    more.length + pending t ≤ pending s ∧
      ((∀ k, go t k = none) → ∀ task ∈ t, task.rest = [] ∧ task.held = []) :=
  tasks_finish (fun work => (script_block work).ordered) hrun goes hmore

section sample

def contended : List (Action Work) :=
  [.start (.handleCommand 7 false 2), .start (.syncAndBackfill 1 1), .start (.onDeviceFrame [7]),
    .go 0, .go 0, .go 0, .go 1]

def resolved : List (Action Work) :=
  .go 2 :: .go 0 :: .go 2 :: .go 2 :: (List.replicate 8 (.go 0) ++ List.replicate 13 (.go 1))

theorem tasks_never_deadlock_contended : ∃ s t,
    Runs.run (step Work.script) [] contended = some s ∧
      Runs.run (step Work.script) s resolved = some t ∧
      ∀ task ∈ t, task.rest = [] ∧ task.held = [] := by
  have got : (Runs.run (step Work.script) [] contended).bind (fun s =>
      (Runs.run (step Work.script) s resolved).map fun t =>
        (decide (Runs.Along (step Work.script) Goes s resolved), pending t)) =
      some (true, 0) := by
    decide +kernel
  simp only [Option.bind_eq_some_iff, Option.map_eq_some_iff, Prod.mk.injEq,
    decide_eq_true_eq] at got
  obtain ⟨s, hs, t, ht, goes, none⟩ := got
  have law := tasks_never_deadlock contended s hs resolved t ht goes
  refine ⟨s, t, hs, ht, law.2 fun k => ?_⟩
  cases moved : go t k with
  | none => rfl
  | some u => exact absurd (pending_go moved) (by omega)

end sample

end MeshwardenDaemon.Locks
