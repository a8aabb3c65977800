import RevisionLog.Proofs.Replay

/-!
# Continuity

Whatever clients do to a log, and in whatever order, the states of every name form one chain.

* `Entry.Continuous` — the rows of a log, read as entries, are in order for every name.
* `Log.Start.play_continuous` — they are so in every state that a run reaches.
-/

namespace RevisionLog

/-- Entries of a log that was compacted up to a watermark are in order: what is left of the states
of every name is a chain, and its first state follows nothing, or one that was compacted away. -/
structure Entry.Continuous (watermark : Int) (es : List Entry) : Prop where
  revisions : (es.map Entry.revision).Nodup
  links : (es.map fun e => (e.prevRevision, e.name)).Nodup
  ordered : ∀ name, (es.filter (·.isStateOf name)).Pairwise (·.revision < ·.revision)
  chained : ∀ name, (es.filter (·.isStateOf name)).IsChain Entry.Precedes
  born : ∀ name, ∀ e ∈ es.filter (·.isStateOf name), e.IsBorn
  dangling : ∀ name, ∀ e, (es.filter (·.isStateOf name)).head? = some e →
    e.prevRevision = 0 ∨
      (e.prevRevision ≤ watermark ∧ ∀ f ∈ es, f.revision = e.prevRevision → f.isGap = true)

namespace Log

/-- The entries of a sound log are in order. -/
theorem Sound.continuous {log : Log} (h : log.Sound) : Entry.Continuous log.floor log.entries where
  revisions := List.pairwise_map.2 (log.pairwise_entries.imp Int.ne_of_lt)
  links := by
    refine List.pairwise_map.2 (log.pairwise_entries.imp_of_mem ?_)
    intro e f he hf hlt hlink
    obtain ⟨hprev, hname⟩ := Prod.mk.inj hlink
    have hef := h.links e he f hf hprev hname
    rw [hef] at hlt
    exact Int.lt_irrefl _ hlt
  ordered := log.pairwise_chain
  chained := h.chained
  born name e he := h.born e (mem_chain.1 he).1 (mem_chain.1 he).2.2
  dangling name e he := h.dangling name e he

/-- **Continuity.** After any run from the start of a log every row can be read, the ids of the
rows are distinct, no two rows of a name follow the same revision, and the states of every name
are in order. -/
theorem Start.play_continuous {log : Log} (h : log.Start) (ops : List Op) :
    ∃ es watermark, (log.play ops).rows.mapM Row.entry = .ok es ∧
      Store.compactedTo (log.play ops) = .ok watermark ∧
        ((log.play ops).rows.map Row.id).Nodup ∧ Entry.Continuous watermark es := by
  have hreached := (h.intact.play ops).toSound
  refine ⟨(log.play ops).entries, (log.play ops).floor, ?_, ?_, ?_, hreached.continuous⟩
  · exact mapM_entry hreached.plain
  · exact hreached.store_compactedTo
  · exact List.pairwise_map.2 ((log.play ops).ordered.imp Int.ne_of_lt)

/-- A key of a migrated table is written, deleted, compacted away and created again, around a
placeholder. -/
theorem Start.exists_play_continuous :
    ∃ (log : Log) (ops : List Op), log.Start ∧ log.rows.length = 3 ∧
    ops = [.update "a" [7] 3 0, .fill 6 (by decide), .delete "a" 4, .compact 7, .create "a" [8] 0] ∧
    ∃ es watermark, (log.play ops).rows.mapM Row.entry = .ok es ∧
      Store.compactedTo (log.play ops) = .ok watermark ∧
        ((log.play ops).rows.map Row.id).Nodup ∧ Entry.Continuous watermark es := by
  obtain ⟨log, hstart, hrows⟩ := Start.exists_migrated
  exact ⟨log, _, hstart, hrows, rfl, hstart.play_continuous _⟩

end Log

end RevisionLog
