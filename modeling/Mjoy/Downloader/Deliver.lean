import Mjoy.Downloader.Tasks

/-!
`deliver` keeps the invariant of the queue. It takes the peer's request out of the pending
pool; each header it accepts is done, and the others go back to the task queue. A delivery
that fails, is stale or arrives for no request changes nothing else.
-/

namespace Mjoy.Downloader

namespace Queue

variable {τ ρ : Type} {sched : List Header} {offset : Nat} (consecutive : Consecutive offset sched)
include consecutive

section Deliver

variable (k : Kind) (results : Nat) (reconstruct : Header → Nat → FetchResult τ ρ → Except String (FetchResult τ ρ))
  (keeps : ∀ header n r r', reconstruct header n r = .ok r' → r'.header = r.header ∧ r'.pending = r.pending)
include keeps

/-- The loop of `deliver`, on the queue with the headers not yet matched put back, keeps the
invariant: every header it accepts is done, and it returns the others. -/
theorem Tracks.deliverLoop : ∀ (headers : List Header) (i : Nat) (q : Queue τ ρ), (q.restore k headers).Tracks sched →
    ((Queue.deliverLoop k results reconstruct i headers q).1.restore k
        (Queue.deliverLoop k results reconstruct i headers q).2.2.2).Tracks sched ∧
      (Queue.deliverLoop k results reconstruct i headers q).1.resultOffset = q.resultOffset := by
  intro headers
  induction headers with
  | nil => exact fun i q tracks => ⟨tracks, rfl⟩
  | cons header rest ih =>
      intro i q tracks
      simp only [Queue.deliverLoop]
      split_ifs with stop
      · exact ⟨tracks, rfl⟩
      · split
        · exact ⟨tracks, rfl⟩
        · next index indexed =>
            split
            · next result found =>
                split
                · exact ⟨tracks, rfl⟩
                · next rebuilt built =>
                    obtain ⟨sameHeader, samePending⟩ := keeps _ _ _ _ built
                    obtain ⟨slot, -⟩ := cacheIndex_eq_some.mp indexed
                    have taken : (q.restore k ([] ++ header :: rest)).Tracks sched := tracks
                    have header' : ({ rebuilt with pending := rebuilt.pending - 1 } : FetchResult τ ρ).header =
                        result.header := sameHeader
                    have counted : ({ rebuilt with pending := rebuilt.pending - 1 } : FetchResult τ ρ).pending =
                        result.pending - 1 := by simp [samePending]
                    have next := Tracks.markDone consecutive taken found slot header' counted
                    obtain ⟨tracked, offsetSame⟩ := ih (i + 1) _ (by simpa using next)
                    exact ⟨tracked, by simpa using offsetSame⟩
            · exact ⟨tracks, rfl⟩

/-- `deliver` keeps the invariant and the offset. -/
theorem Tracks.deliver {q : Queue τ ρ} (tracks : q.Tracks sched) (id : PeerId) :
    (q.deliver k id results reconstruct).2.1.Tracks sched ∧
      (q.deliver k id results reconstruct).2.1.resultOffset = q.resultOffset := by
  unfold Queue.deliver
  split
  · exact ⟨tracks, rfl⟩
  · next request found =>
      have peers := tracks.peers k
      -- with the request taken out, its headers are the ones put back
      have start := tracks.move k ({ q.pools k with pendPool := (q.pools k).pendPool.remove id }.pushAll
        request.headers) ?_ (by simp) ?_ ?_
      · obtain ⟨tracked, offsetSame⟩ := Tracks.deliverLoop consecutive k results reconstruct keeps request.headers 0
          (q.setPools k { q.pools k with pendPool := (q.pools k).pendPool.remove id }) (by simpa [restore] using start)
        exact ⟨by simpa [restore] using tracked, by simpa using offsetSame⟩
      · have split := pending_perm_remove peers found
        simp only [Pools.queued_pushAll, Pools.pushAll_pendPool, Pools.queued_withPending, Pools.pending,
          List.append_assoc]
        exact (split.append_left _).symm
      · intro x mem
        simp only [Pools.pushAll_items, List.mem_append, List.mem_map] at mem
        rcases mem with queued | ⟨header, -, rfl⟩
        · exact (tracks.queued k x queued).2
        · rfl
      · simpa using Table.nodup_keys_remove peers id

end Deliver

/-- `DeliverBodies` keeps the invariant: it only fills in the transactions of a result. -/
theorem Tracks.deliverBodies {q : Queue τ ρ} (tracks : q.Tracks sched) (deriveSha : List τ → Hash) (id : PeerId)
    (txLists : List (List τ)) :
    (q.deliverBodies deriveSha id txLists).2.1.Tracks sched ∧
      (q.deliverBodies deriveSha id txLists).2.1.resultOffset = q.resultOffset := by
  refine Tracks.deliver consecutive .bodies _ _ ?_ tracks id
  intro header n r r' built
  simp only at built
  split at built
  · cases built
  · cases built
    exact ⟨rfl, rfl⟩

/-- `DeliverReceipts` keeps the invariant: it only fills in the receipts of a result. -/
theorem Tracks.deliverReceipts {q : Queue τ ρ} (tracks : q.Tracks sched) (deriveReceipts : List ρ → Hash)
    (id : PeerId) (receiptLists : List (List ρ)) :
    (q.deliverReceipts deriveReceipts id receiptLists).2.1.Tracks sched ∧
      (q.deliverReceipts deriveReceipts id receiptLists).2.1.resultOffset = q.resultOffset := by
  refine Tracks.deliver consecutive .receipts _ _ ?_ tracks id
  intro header n r r' built
  simp only at built
  split at built
  · cases built
  · cases built
    exact ⟨rfl, rfl⟩

end Queue

end Mjoy.Downloader
