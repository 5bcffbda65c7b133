import MeshwardenDaemon.PacketScan
import MeshwardenDaemon.PacketStats

/-! `iter_payloads` among the other statements on the packets. Each page starts after the
last id of the page before, so rows may come and go between two pages. -/
namespace MeshwardenDaemon.PayloadIteration
open Library KeyedTable PacketTable PacketScan

structure State where
  store : PacketStats.State
  lastId : ℕ
  yielded : List PacketRow
  ended : Bool

def start (store : PacketStats.State) : State := ⟨store, 0, [], false⟩

inductive Action
  /-- Another statement runs. -/
  | store (a : PacketStats.Action)
  /-- The next SELECT runs, and its rows are yielded. -/
  | fetch
  deriving DecidableEq

def step (storePayloads : Bool) (w : Window) (batch : ℕ) (s : State) : Action → Option State
  | .store a => (PacketStats.step storePayloads s.store a).map fun store =>
      { s with store := store }
  | .fetch =>
    if s.ended then none
    else
      let found := page s.store.packets.rows w batch s.lastId
      match found.getLast? with
      | none => some { s with ended := true }
      | some last =>
        if found.length < batch then some { s with yielded := s.yielded ++ found, ended := true }
        else some { s with yielded := s.yielded ++ found, lastId := last.id }

section page
variable {packets : Packets} {w : Window} {batch lastId : ℕ}

theorem mergeSort_id_increasing (p : PacketRow → Bool) :
    ((packets.rows.filter p).mergeSort fun a b => a.id ≤ b.id).Pairwise
      fun a b => a.id < b.id := by
  have unique := (packets.id_unique.filter p).perm
    (List.mergeSort_perm _ fun a b => a.id ≤ b.id).symm
  refine ((mergeSort_id_ordered _).and unique).imp fun {a b} both => ?_
  exact lt_of_le_of_ne both.1 fun same => both.2 a.id rfl (congrArg some same.symm)

theorem page_increasing :
    (page packets.rows w batch lastId).Pairwise fun a b => a.id < b.id :=
  (mergeSort_id_increasing _).sublist (List.take_sublist _ _)

theorem id_le_last {last r : PacketRow}
    (at_end : (page packets.rows w batch lastId).getLast? = some last)
    (hr : r ∈ page packets.rows w batch lastId) : r.id ≤ last.id := by
  obtain ⟨front, cut⟩ := List.getLast?_eq_some_iff.mp at_end
  have increasing : (page packets.rows w batch lastId).Pairwise fun a b => a.id < b.id :=
    page_increasing
  rw [cut] at hr increasing
  rcases List.mem_append.mp hr with before | last_one
  · exact ((List.pairwise_append.mp increasing).2.2 r before last (List.mem_singleton_self _)).le
  · rw [List.mem_singleton.mp last_one]

theorem iterPayloads_increasing (some_batch : 1 ≤ batch) :
    (iterPayloads packets.rows w batch lastId).Pairwise fun a b => a.id < b.id := by
  fun_induction iterPayloads packets.rows w batch lastId with
  | case1 lastId found none => exact page_increasing
  | case2 lastId found last at_end short => exact page_increasing
  | case3 lastId found last at_end full ih =>
    refine List.pairwise_append.mpr ⟨page_increasing, ih, fun a ha b hb => ?_⟩
    exact (id_le_last at_end ha).trans_lt ((mem_iterPayloads some_batch).mp hb).2.2

theorem iterPayloads_eq (some_batch : 1 ≤ batch) (positive : ∀ r ∈ packets.rows, 0 < r.id) :
    iterPayloads packets.rows w batch 0 =
      (packets.rows.filter fun r => w.Selects r).mergeSort fun a b => a.id ≤ b.id := by
  have increasing : (iterPayloads packets.rows w batch 0).Pairwise fun a b => a.id < b.id :=
    iterPayloads_increasing some_batch
  have sorted : ((packets.rows.filter fun r => w.Selects r).mergeSort fun a b =>
      a.id ≤ b.id).Pairwise fun a b => a.id < b.id := mergeSort_id_increasing _
  refine List.Perm.eq_of_pairwise ?_ increasing sorted ?_
  · intro a b _ _ less greater
    exact absurd less greater.not_gt
  · refine (List.perm_ext_iff_of_nodup ?_ ?_).mpr fun r => ?_
    · exact increasing.imp fun less same => less.ne (congrArg PacketRow.id same)
    · exact sorted.imp fun less same => less.ne (congrArg PacketRow.id same)
    · rw [mem_iterPayloads some_batch, List.mem_mergeSort, List.mem_filter, decide_eq_true_eq]
      exact ⟨fun h => ⟨h.1, h.2.1⟩, fun h => ⟨h.1, h.2, positive r h.1⟩⟩

end page

structure Scanned (w : Window) (s : State) : Prop where
  increasing : s.yielded.Pairwise fun a b => a.id < b.id
  selects : ∀ r ∈ s.yielded, w.Selects r
  past : s.ended = false → ∀ r ∈ s.yielded, r.id ≤ s.lastId

def Ahead (r : PacketRow) (s : State) : Prop :=
  r ∈ s.yielded ∨ s.ended = false ∧ s.lastId < r.id

/-- The row is in the table whenever a page is read. -/
def Present (r : PacketRow) (s : State) (a : Action) : Prop :=
  a = .fetch → r ∈ s.store.packets.rows

instance (r : PacketRow) (s : State) (a : Action) : Decidable (Present r s a) :=
  inferInstanceAs (Decidable (_ → _))

section Scanned
variable {storePayloads : Bool} {w : Window} {batch : ℕ} {s t : State} {a : Action}
  {r : PacketRow}

theorem fetch_cases (some_batch : 1 ≤ batch)
    (hs : step storePayloads w batch s .fetch = some t) :
    s.ended = false ∧ t.yielded = s.yielded ++ page s.store.packets.rows w batch s.lastId ∧
      (t.ended = true ∧ (page s.store.packets.rows w batch s.lastId).length < batch ∨
        t.ended = false ∧ ∃ last, (page s.store.packets.rows w batch s.lastId).getLast? =
          some last ∧ t.lastId = last.id) := by
  simp only [step, Option.ite_none_left_eq_some, Bool.not_eq_true] at hs
  obtain ⟨going, hs⟩ := hs
  refine ⟨going, ?_⟩
  split at hs
  · rename_i none
    have empty := List.getLast?_eq_none_iff.mp none
    cases hs
    exact ⟨by rw [empty, List.append_nil], Or.inl ⟨rfl, by rw [empty]; exact some_batch⟩⟩
  · rename_i last at_end
    split at hs
    · rename_i short
      cases hs
      exact ⟨rfl, Or.inl ⟨rfl, short⟩⟩
    · cases hs
      exact ⟨rfl, Or.inr ⟨going, last, at_end, rfl⟩⟩

theorem Scanned.step (some_batch : 1 ≤ batch) (h : Scanned w s)
    (hs : PayloadIteration.step storePayloads w batch s a = some t) : Scanned w t := by
  cases a with
  | store a =>
    obtain ⟨store, -, rfl⟩ := Option.map_eq_some_iff.mp hs
    exact ⟨h.increasing, h.selects, h.past⟩
  | fetch =>
    obtain ⟨going, yielded, ends⟩ := fetch_cases some_batch hs
    refine ⟨?_, fun r hr => ?_, fun more r hr => ?_⟩
    · rw [yielded]
      refine List.pairwise_append.mpr ⟨h.increasing, page_increasing, fun x hx y hy => ?_⟩
      exact (h.past going x hx).trans_lt (mem_of_mem_page hy).2.2
    · rw [yielded] at hr
      exact (List.mem_append.mp hr).elim (h.selects r) fun new => (mem_of_mem_page new).2.1
    · obtain ⟨ended, -⟩ | ⟨-, last, at_end, lastId⟩ := ends
      · rw [ended] at more
        cases more
      · rw [lastId]
        rw [yielded] at hr
        rcases List.mem_append.mp hr with old | new
        · have := (mem_of_mem_page (List.mem_of_getLast? at_end)).2.2
          exact (h.past going r old).trans this.le
        · exact id_le_last at_end new

theorem Ahead.step (some_batch : 1 ≤ batch) (selects : w.Selects r) (h : Ahead r s)
    (present : Present r s a)
    (hs : PayloadIteration.step storePayloads w batch s a = some t) : Ahead r t := by
  cases a with
  | store a =>
    obtain ⟨store, -, rfl⟩ := Option.map_eq_some_iff.mp hs
    exact h
  | fetch =>
    obtain ⟨-, yielded, ends⟩ := fetch_cases some_batch hs
    rw [Ahead, yielded, List.mem_append]
    rcases h with old | ⟨-, new⟩
    · exact Or.inl (Or.inl old)
    · rcases page_ahead (present rfl) selects new with here | ⟨full, before⟩
      · exact Or.inl (Or.inr here)
      · obtain ⟨-, short⟩ | ⟨more, last, at_end, lastId⟩ := ends
        · exact absurd full short.ne
        · rw [lastId]
          exact Or.inr ⟨more, before last (List.mem_of_getLast? at_end)⟩

end Scanned

theorem iterPayloads_is_run (storePayloads : Bool) (w : Window) (batch : ℕ)
    (store : PacketStats.State) (lastId : ℕ) (yielded : List PacketRow) :
    ∃ n last, Runs.run (step storePayloads w batch) ⟨store, lastId, yielded, false⟩
      (List.replicate n .fetch) =
        some ⟨store, last, yielded ++ iterPayloads store.packets.rows w batch lastId, true⟩ := by
  fun_induction iterPayloads store.packets.rows w batch lastId generalizing yielded with
  | case1 lastId found none =>
    have at_end : (page store.packets.rows w batch lastId).getLast? = Option.none := none
    have empty : found = [] := List.getLast?_eq_none_iff.mp none
    have fetched : step storePayloads w batch ⟨store, lastId, yielded, false⟩ .fetch =
        some ⟨store, lastId, yielded ++ found, true⟩ := by
      simp [step, at_end, empty]
    exact ⟨1, lastId, Runs.run_cons.mpr ⟨_, fetched, rfl⟩⟩
  | case2 lastId found last at_end short =>
    have at_end : (page store.packets.rows w batch lastId).getLast? = some last := at_end
    have short : (page store.packets.rows w batch lastId).length < batch := short
    have fetched : step storePayloads w batch ⟨store, lastId, yielded, false⟩ .fetch =
        some ⟨store, lastId, yielded ++ found, true⟩ := by
      simp [step, at_end, short, found]
    exact ⟨1, lastId, Runs.run_cons.mpr ⟨_, fetched, rfl⟩⟩
  | case3 lastId found last at_end full ih =>
    have at_end : (page store.packets.rows w batch lastId).getLast? = some last := at_end
    have full : ¬ (page store.packets.rows w batch lastId).length < batch := full
    have fetched : step storePayloads w batch ⟨store, lastId, yielded, false⟩ .fetch =
        some ⟨store, last.id, yielded ++ found, false⟩ := by
      simp [step, at_end, full, found]
    obtain ⟨n, lastId', later⟩ := ih (yielded ++ found)
    rw [List.append_assoc] at later
    exact ⟨n + 1, lastId', Runs.run_cons.mpr ⟨_, fetched, later⟩⟩

/-- On a table that does not change, `iter_payloads` yields the selected rows by their ids
and ends. Whatever is inserted and pruned between its pages, it yields no row twice, and a
selected row that is there at every page once. -/
theorem iteration_exact (w : Window) (batch : ℕ) (some_batch : 1 ≤ batch)
    (store : PacketStats.State) (positive : ∀ r ∈ store.packets.rows, 0 < r.id)
    (storePayloads : Bool) :
    iterPayloads store.packets.rows w batch 0 =
      (store.packets.rows.filter fun r => w.Selects r).mergeSort (fun a b => a.id ≤ b.id) ∧
    (∃ n last, Runs.run (step storePayloads w batch) (start store) (List.replicate n .fetch) =
      some ⟨store, last, iterPayloads store.packets.rows w batch 0, true⟩) ∧
    ∀ acts s, Runs.run (step storePayloads w batch) (start store) acts = some s →
      s.yielded.Pairwise (fun a b => a.id < b.id) ∧ (∀ r ∈ s.yielded, w.Selects r) ∧
      (s.ended = true → ∀ r, w.Selects r → 0 < r.id →
        Runs.Along (step storePayloads w batch) (Present r) (start store) acts →
        s.yielded.count r = 1) := by
  refine ⟨iterPayloads_eq some_batch positive, ?_, fun acts s hrun => ?_⟩
  · exact iterPayloads_is_run storePayloads w batch store 0 []
  · have scanned : Scanned w s := Runs.reachable (fun _ _ _ h hs => h.step some_batch hs)
      ⟨List.Pairwise.nil, by simp [start], by simp [start]⟩ hrun
    refine ⟨scanned.increasing, scanned.selects, fun ended r selects positive present => ?_⟩
    have ahead : Ahead r s := Runs.invariant
      (fun _ _ _ h present hs => h.step some_batch selects present hs)
      (Or.inr ⟨rfl, positive⟩) present hrun
    have yielded : r ∈ s.yielded := by
      refine ahead.resolve_right fun more => ?_
      rw [ended] at more
      cases more.1
    refine List.count_eq_one_of_mem ?_ yielded
    exact scanned.increasing.imp fun less same => less.ne (congrArg PacketRow.id same)

def textPacket (ts : ℕ) : Packet := { ts := ts, payloadType := some 5, payloadHex := some "00" }

def twoPackets : PacketStats.State := { PacketStats.init with
  packets := (Packets.empty.insert true (textPacket 90)).insert true { ts := 10 } }

def prunedScan : List Action :=
  [.fetch, .store (.prune 50 9), .store (.deleteBatch 0 [2]),
    .store (.insertPacket (textPacket 95)), .fetch, .fetch]

theorem iteration_exact_pruned :
    ∃ s, Runs.run (step true ⟨5, 0, 1000⟩ 1) (start twoPackets) prunedScan = some s ∧
      s.yielded.map (fun r => r.id) = [1, 2] ∧ s.yielded.count ⟨textPacket 90, 1⟩ = 1 := by
  have got : (Runs.run (step true ⟨5, 0, 1000⟩ 1) (start twoPackets) prunedScan).map
      (fun s => (s.ended, s.yielded.map fun r => r.id)) = some (true, [1, 2]) := by
    decide +kernel
  simp only [Option.map_eq_some_iff, Prod.mk.injEq] at got
  obtain ⟨s, hs, ended, ids⟩ := got
  have scan := (iteration_exact ⟨5, 0, 1000⟩ 1 le_rfl twoPackets (by decide +kernel) true).2.2
  exact ⟨s, hs, ids, (scan prunedScan s hs).2.2 ended ⟨textPacket 90, 1⟩ (by decide) (by decide)
    (by decide +kernel)⟩

end MeshwardenDaemon.PayloadIteration
