import PostgresRaw.Reader.LineText

/-!
# What reading does to the EOL cache

Only `NoDBGetNextTupleFromFile` changes the rows of the EOL cache: when it delivers the line of row `p`
it writes the length of that row, and sets the used rows to `p + 1` whatever they were.  Everything
else that moves the reader leaves the lengths and the counts as they are.
-/

namespace PostgresRaw

/-- The two have the same lengths and counts; the size of the header may differ. -/
structure EolCache.SameRows (eol eol' : EolCache) : Prop where
  lengths : eol'.lengths = eol.lengths
  usedRows : eol'.usedRows = eol.usedRows
  maxRows : eol'.maxRows = eol.maxRows

namespace EolCache.SameRows

theorem refl (eol : EolCache) : SameRows eol eol := ⟨rfl, rfl, rfl⟩

theorem trans {eol eol' eol'' : EolCache} (first : SameRows eol eol') (second : SameRows eol' eol'') :
    SameRows eol eol'' :=
  ⟨second.lengths.trans first.lengths, second.usedRows.trans first.usedRows, second.maxRows.trans first.maxRows⟩

end EolCache.SameRows

variable {src : Source} {s s' : RawInput}

/-! ### Filling the buffer -/

theorem sameRows_noDBCopyGetData {maxread : Nat} {data : List Byte}
    (read : noDBCopyGetData src maxread s = some (data, s')) : s.eolCache.SameRows s'.eolCache := by
  unfold noDBCopyGetData at read
  simp only at read
  split at read
  · split at read
    · cases read
      exact .refl _
    · split at read
      · cases read
      · cases read
        exact ⟨rfl, rfl, rfl⟩
  · cases read
    exact .refl _

theorem sameRows_noDBCopyLoadRawBuf {loaded : Bool} (load : noDBCopyLoadRawBuf src s = some (loaded, s')) :
    s.eolCache.SameRows s'.eolCache := by
  unfold noDBCopyLoadRawBuf at load
  split at load
  · cases load
  · next read =>
    cases load
    exact (sameRows_noDBCopyGetData read :)

theorem sameRows_refill {needData hitEof hitEof' : Bool} (filled : refill src needData hitEof s = some (hitEof', s')) :
    s.eolCache.SameRows s'.eolCache := by
  unfold refill at filled
  split at filled
  · obtain ⟨⟨loaded, s₁⟩, load, result⟩ := Option.map_eq_some_iff.1 filled
    cases result
    exact sameRows_noDBCopyLoadRawBuf load
  · cases filled
    exact .refl _

theorem sameRows_noDBTryReFillRawBuf {ended : Bool} (tried : noDBTryReFillRawBuf src s = some (ended, s')) :
    s.eolCache.SameRows s'.eolCache := by
  unfold noDBTryReFillRawBuf at tried
  split at tried
  · obtain ⟨⟨loaded, s₁⟩, load, result⟩ := Option.map_eq_some_iff.1 tried
    cases result
    exact sameRows_noDBCopyLoadRawBuf load
  · cases tried
    exact .refl _

/-! ### Reading lines -/

theorem sameRows_readLoop (src : Source) (fuel : Nat) (needData hitEof : Bool) (q : QuoteState) (s : RawInput) :
    s.eolCache.SameRows (readLoop src fuel needData hitEof q s).2.eolCache := by
  induction fuel generalizing needData hitEof q s with
  | zero => exact .refl _
  | succ fuel ih =>
    unfold readLoop
    split
    · exact .refl _
    · next filled =>
      refine (sameRows_refill filled).trans ?_
      split
      · exact .refl _
      · split
        · exact ih ..
        · exact (ih _ _ _ (RawInput.consume _ _) :)
        · exact .refl _
        · exact .refl _
        · exact .refl _
        · exact .refl _

theorem sameRows_readBatch (src : Source) (processed : Nat) (s : RawInput) :
    s.eolCache.SameRows (readBatch src processed s).2.eolCache := by
  unfold readBatch
  simp only
  split <;> split <;> exact .refl _

/-- Reading a line whose length is known changes no row. -/
theorem sameRows_noDBGetNextTupleFromFileWithEOL (src : Source) (processed : Nat) (s : RawInput) :
    s.eolCache.SameRows (noDBGetNextTupleFromFileWithEOL src processed s).2.eolCache := by
  have read : s.eolCache.SameRows (noDBCopyReadLineTextWithEOL src processed { s with lineBuf := [] }).2.eolCache := by
    have batch := sameRows_readBatch src processed { s with lineBuf := [] }
    unfold noDBCopyReadLineTextWithEOL
    split
    next exhausted s₁ first =>
      have same : s.eolCache.SameRows s₁.eolCache := by
        split at first
        · rw [first] at batch
          exact batch
        · cases first
          exact .refl _
      simp only
      split
      · exact same
      · split
        · exact same
        · exact same
  unfold noDBGetNextTupleFromFileWithEOL
  split
  · next result =>
    rw [result] at read
    exact read
  · next result =>
    rw [result] at read
    exact read

/-- **What `NoDBGetNextTupleFromFile` does to the rows**: nothing, unless it delivers the line. -/
theorem noDBGetNextTupleFromFile_rows (src : Source) (processed : Nat) (s : RawInput) :
    let read := noDBGetNextTupleFromFile src processed s
    (read.1 ≠ .line ∧ s.eolCache.SameRows read.2.eolCache) ∨
      (read.1 = .line ∧ read.2.eolCache.usedRows = processed + 1 ∧ read.2.eolCache.maxRows = s.eolCache.maxRows ∧
        ∀ row ≠ processed, read.2.eolCache.lengths row = s.eolCache.lengths row) := by
  have read : s.eolCache.SameRows (noDBCopyReadLineText src { s with lineBuf := [] }).2.eolCache :=
    sameRows_readLoop src _ false false .start { s with lineBuf := [] }
  unfold noDBGetNextTupleFromFile
  split
  · next result =>
    rw [result] at read
    refine .inr ⟨rfl, rfl, read.maxRows, fun row other => ?_⟩
    change Function.update _ processed _ row = _
    rw [Function.update_of_ne other, read.lengths]
  · next result other =>
    rw [other] at read
    exact .inl ⟨result, read⟩

end PostgresRaw
