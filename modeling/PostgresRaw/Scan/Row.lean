import PostgresRaw.Scan.Plain

/-!
# One row

What the executor functions do to a row whose line is plain: `fetch_cases` for reading its
columns, by whatever mix of data caches, positional maps, navigation and parsing the node
prescribes, and `writeCaches_cases` for writing the caches.

Reading needs that the slots named by the node can be read and are right.  It either stops at a
field that an input function rejects, or gives the values of the record.
-/

namespace PostgresRaw

open List

section

variable {D : Type} {rel : Relation D} {records : List (PlainRecord rel.fmt rel.natts)}

variable (rel records) in
/-- The slot lies in the buffer of its cache and is right. -/
def Readable (caches : List (Cache D)) (t : CacheType) (i c r : Nat) : Prop :=
  ∃ cache, caches[i]? = some cache ∧ cache.hasBuffer r = true ∧ CellRight rel records t c r (cache.cells c r)

variable {caches : List (Cache D)} {r row : Nat} {entries : List ColumnsPerCache}
  {record : PlainRecord rel.fmt rel.natts} {cell : Nat → Cell D}

theorem Readable.right {t : CacheType} {i c : Nat} (readable : Readable rel records caches t i c r) :
    CellRight rel records t c r (cellAt caches i c r) := by
  obtain ⟨cache, here, -, right⟩ := readable
  rwa [cellAt_eq here]

/-! ### Reading from caches -/

/-- A vector after slots have been loaded into it. -/
def Loads {α : Type} (entries : List ColumnsPerCache) (goal vector vector' : Nat → α) : Prop :=
  ∀ c, ((∃ i, Maps entries i c) → vector' c = goal c) ∧ ((∀ i, ¬ Maps entries i c) → vector' c = vector c)

/-- A loop that loads slots into a vector. -/
theorem foldlM_getCells {α : Type} {load : Nat → Cell D → α} {goal : Nat → α} (occupied : Occupied entries)
    (readable : ∀ {i c}, Maps entries i c → ∃ cache, caches[i]? = some cache ∧
      cache.hasBuffer r = true ∧ load c (cache.cells c r) = goal c) (vector : Nat → α) :
    ∃ vector', entries.foldlM
        (fun vector entry => do (← caches[entry.cache]?).getCells entry.cols r load vector) vector =
          some vector' ∧ Loads entries goal vector vector' := by
  induction entries generalizing vector with
  | nil => exact ⟨vector, rfl, fun c => ⟨fun ⟨i, there⟩ => absurd there (not_maps_nil i c), fun _ => rfl⟩⟩
  | cons entry entries ih =>
    have here : ∀ {c}, c ∈ entry.cols → Maps (entry :: entries) entry.cache c :=
      fun mem => ⟨entry, by simp, rfl, mem⟩
    have later : ∀ {i c}, Maps entries i c → Maps (entry :: entries) i c :=
      fun ⟨other, mem, same⟩ => ⟨other, mem_cons_of_mem _ mem, same⟩
    obtain ⟨first, mem⟩ := exists_mem_of_ne_nil _ (occupied entry (by simp))
    obtain ⟨cache, found, buffer, -⟩ := readable (here mem)
    have loaded : ∀ {c}, c ∈ entry.cols → load c (cache.cells c r) = goal c := by
      intro c mem
      obtain ⟨cache', found', -, right⟩ := readable (here mem)
      obtain rfl : cache = cache' := Option.some.inj (found.symm.trans found')
      exact right
    obtain ⟨vector', run, result⟩ := ih (fun other mem => occupied other (mem_cons_of_mem _ mem))
      (fun there => readable (later there))
      (fun c => if c ∈ entry.cols then load c (cache.cells c r) else vector c)
    refine ⟨vector', ?_, fun c => ⟨?_, fun none => ?_⟩⟩
    · rw [foldlM_cons, found]
      simp only [Option.bind_eq_bind, Option.bind_some, Cache.getCells, buffer, or_true, if_true]
      exact run
    · rintro ⟨i, other, inside, same, mem'⟩
      rcases mem_cons.1 inside with rfl | inside'
      · by_cases again : ∃ i, Maps entries i c
        · exact (result c).1 again
        · exact ((result c).2 (not_exists.1 again)).trans ((if_pos mem').trans (loaded mem'))
      · exact (result c).1 ⟨i, other, inside', same, mem'⟩
    · exact ((result c).2 fun i there => none i (later there)).trans (if_neg fun mem' => none _ (here mem'))

theorem readCaches_eq (here : records[r]? = some record) (occupied : Occupied entries)
    (readable : ∀ {i c}, Maps entries i c → Readable rel records caches .data i c r) (values : Nat → Value D) :
    ∃ values', readCaches caches r entries values = some values' ∧
      Loads entries (record.value rel.input) values values' := by
  refine foldlM_getCells occupied (fun {i c} there => ?_) values
  obtain ⟨cache, found, buffer, record', here', -, -, cell⟩ := readable there
  obtain rfl : record' = record := Option.some.inj (here'.symm.trans here)
  exact ⟨cache, found, buffer, by rw [cell]; rfl⟩

theorem readPositions_eq (here : records[r]? = some record) (occupied : Occupied entries)
    (readable : ∀ {i c}, Maps entries i c → Readable rel records caches .positions i c r) (attributes : Nat → PMPair) :
    ∃ attributes', readPositions rel caches r entries attributes = some attributes' ∧
      Loads entries record.pair attributes attributes' := by
  refine foldlM_getCells occupied (fun {i c} there => ?_) attributes
  obtain ⟨cache, found, buffer, record', here', -, cell⟩ := readable there
  obtain rfl : record' = record := Option.some.inj (here'.symm.trans here)
  exact ⟨cache, found, buffer, by rw [cell]; rfl⟩

/-! ### Fetching columns -/

/-- The lists of `FillRow` as the executor functions use them. -/
def FillRowReply.access (r : FillRowReply) : Access where
  withCache := r.mapDataHit
  withPM := r.mapReadFromPM
  viaPM := r.readViaPM
  withFile := r.collectFromFile
  convert := r.convert

/-- What is left of a fetch once the caches have been read. -/
theorem fetch_eq {lastfield : Nat} {a : Access} {fileConvert : List Nat} {s : RowState D} {values : Nat → Value D}
    {attributes : Nat → PMPair} (data : readCaches caches row a.withCache s.values = some values)
    (positions : readPositions rel caches row a.withPM s.attributes = some attributes) :
    fetch rel caches lastfield row a fileConvert s =
      let attributes := a.viaPM.foldl
        (fun attributes via => noDBGetNextTupleViaPM rel.fmt s.lineBuf via attributes) attributes
      if a.withFile ≠ [] then
        parseLine rel lastfield fileConvert { s with values := values, attributes := attributes }
      else convertPositions rel a.convert { s with values := values, attributes := attributes } := by
  rw [fetch, data, positions]

theorem PlainRecord.intact {fmt : CsvFormat} {natts : Nat} (record : PlainRecord fmt natts) :
    FieldsIntact record.scans record.line := by
  rcases Nat.eq_zero_or_pos natts with zero | positive
  · intro k f here
    have := (List.getElem?_eq_some_iff.1 here).1
    rw [record.scans_length] at this
    omega
  · exact (record.split positive).intact

/-- The columns of a row have been fetched. -/
structure Fetched (rel : Relation D) (record : PlainRecord rel.fmt rel.natts) (cols : List Nat)
    (request : RowRequest) (node : Nat → Node) (s s' : RowState D) : Prop where
  read : ∀ c ∈ cols, c ∈ request.read ∨ Converts request node c → s'.values c = record.value rel.input c
  unread : ∀ c, ¬ (c ∈ cols ∧ (c ∈ request.read ∨ Converts request node c)) → s'.values c = s.values c
  accepted : ∀ c ∈ cols, Converts request node c → record.Accepts rel.input c
  positions : ∀ c ∈ cols, Needs request node c → s'.attributes c = record.pair c
  start : (s'.attributes 0).pointer = 0

/-- A fetch stops at a value that is rejected, or fetches the columns. -/
def FetchEnds (rel : Relation D) (record : PlainRecord rel.fmt rel.natts) (cols : List Nat) (request : RowRequest)
    (node : Nat → Node) (s : RowState D) (result : Except Failure (RowState D)) : Prop :=
  (result = .error (.error .rejectedInput) ∧ ∃ c ∈ cols, Converts request node c ∧ ¬ record.Accepts rel.input c) ∨
    ∃ s', result = .ok s' ∧ Fetched rel record cols request node s s'

section

variable {byValue : Nat → Bool} {cols : List Nat} {request : RowRequest} {node : Nat → Node}
  {reply : FillRowReply} {caches : List (Cache D)} {lastfield r : Nat}
  {record : PlainRecord rel.fmt rel.natts} {s : RowState D}

variable {values : Nat → Value D}

section

variable (filled : FilledRow byValue cols request node reply)
include filled

/-- The values after the columns have been read from data caches and converted. -/
theorem FilledRow.values_cases {values' : Nat → Value D}
    {result : Nat → Value D} (cached : Loads reply.mapDataHit (record.value rel.input) values values')
    (converted : result = fun c => if c ∈ reply.convert then record.value rel.input c else values' c) (c : Nat) :
    ((c ∈ cols ∧ (c ∈ request.read ∨ Converts request node c)) → result c = record.value rel.input c) ∧
      (¬ (c ∈ cols ∧ (c ∈ request.read ∨ Converts request node c)) → result c = values c) := by
  rw [converted]
  simp only
  by_cases isConverted : c ∈ reply.convert
  · rw [if_pos isConverted]
    obtain ⟨mem, converts⟩ := filled.convert.1 isConverted
    exact ⟨fun _ => rfl, fun none => absurd ⟨mem, .inr converts⟩ none⟩
  · rw [if_neg isConverted]
    refine ⟨?_, fun none => ?_⟩
    · rintro ⟨mem, reads | converts⟩
      · by_cases isHit : ∃ i, (node c).mark .data = .hit i
        · obtain ⟨i, hit⟩ := isHit
          exact (cached c).1 ⟨i, filled.hit.2 ⟨mem, reads, hit⟩⟩
        · exact absurd (filled.convert.2 ⟨mem, .inl ⟨reads, not_exists.1 isHit⟩⟩) isConverted
      · exact absurd (filled.convert.2 ⟨mem, converts⟩) isConverted
    · refine (cached c).2 fun i there => none ?_
      obtain ⟨mem, reads, -⟩ := filled.hit.1 there
      exact ⟨mem, .inl reads⟩

section

variable (inside : ∀ c ∈ cols, c < rel.natts) (line : s.lineBuf = record.line)

include inside line

/-- Parsing the line and converting its columns. -/
theorem parseLine_cases
    (last : ∀ c ∈ cols, c ≤ lastfield) (collect : ∀ c, c ∈ reply.collectFromFile ↔ c ∈ cols ∧ Needs request node c)
    (some : reply.collectFromFile ≠ []) (cached : Loads reply.mapDataHit (record.value rel.input) s.values values)
    (start : (s.attributes 0).pointer = 0) :
    FetchEnds rel record cols request node s (parseLine rel lastfield reply.convert { s with values := values }) := by
  obtain ⟨first, mem⟩ := exists_mem_of_ne_nil _ some
  have positive : 0 < rel.natts := by
    have := inside first ((collect first).1 mem).1
    omega
  obtain ⟨parsed, result, fields⟩ := record.noDBCopyReadAttributesCSV_eq positive lastfield start
  have known : ∀ c ∈ cols, parsed.attributes c = record.pair c ∧
      parsed.fieldStrings c = .text (record.fields.getD c []) :=
    fun c mem => fields c (last c mem) (inside c mem)
  rw [parseLine]
  simp only [line, result]
  rcases record.noDBGetValues_cases rel.input reply.convert
      (fun c mem => ⟨inside c (filled.convert.1 mem).1, (known c (filled.convert.1 mem).1).2⟩)
      values with ⟨fails, c, mem, rejects⟩ | ⟨converts, accepts⟩
  · obtain ⟨mem, converts⟩ := filled.convert.1 mem
    rw [fails]
    exact .inl ⟨rfl, c, mem, converts, rejects⟩
  · rw [converts]
    have final := filled.values_cases cached rfl
    refine .inr ⟨_, rfl, fun c mem reads => (final c).1 ⟨mem, reads⟩, fun c none => (final c).2 none,
      fun c mem converts => accepts c (filled.convert.2 ⟨mem, converts⟩), fun c mem _ => (known c mem).1, ?_⟩
    change (parsed.attributes 0).pointer = 0
    rw [(fields 0 (Nat.zero_le _) positive).1]
    rfl

/-- Converting columns at positions that are right. -/
theorem convertPositions_cases
    {attributes : Nat → PMPair} (cached : Loads reply.mapDataHit (record.value rel.input) s.values values)
    (right : ∀ c ∈ cols, Needs request node c → record.Holds attributes c)
    (start : (attributes 0).pointer = 0) : FetchEnds rel record cols request node s
      (convertPositions rel reply.convert { s with values := values, attributes := attributes }) := by
  rw [convertPositions]
  simp only [line]
  rcases record.noDBGetValuesWithPM_cases rel.input attributes reply.convert
      (fun c mem => ⟨inside c (filled.convert.1 mem).1,
        right c (filled.convert.1 mem).1 (.inl (filled.convert.1 mem).2)⟩)
      record.intact values with ⟨fails, c, mem, rejects⟩ | ⟨lineBuf, converts, accepts⟩
  · obtain ⟨mem, converts⟩ := filled.convert.1 mem
    rw [fails]
    exact .inl ⟨rfl, c, mem, converts, rejects⟩
  · rw [converts]
    have final := filled.values_cases cached rfl
    exact .inr ⟨_, rfl, fun c mem reads => (final c).1 ⟨mem, reads⟩, fun c none => (final c).2 none,
      fun c mem converts => accepts c (filled.convert.2 ⟨mem, converts⟩), right, start⟩

/-- **Fetching the columns of a row** from a plain line. -/
theorem fetch_cases (noEmpty : reply.NoEmpty) (last : ∀ c ∈ cols, c ≤ lastfield)
    (hits : ∀ {c i}, c ∈ cols → (node c).mark .data = .hit i → Readable rel records caches .data i c r)
    (anchors : ∀ {c b}, c ∈ cols → (node c).closest = some b →
      Readable rel records caches .positions b.cache b.column r)
    (here : records[r]? = some record) (start : (s.attributes 0).pointer = 0) :
    FetchEnds rel record cols request node s (fetch rel caches lastfield r reply.access reply.convert s) := by
  obtain ⟨values, readData, cached⟩ := readCaches_eq here noEmpty.hit
    (fun there => by
      obtain ⟨mem, -, hit⟩ := filled.hit.1 there
      exact hits mem hit) s.values
  rcases filled.access with ⟨noMaps, noVias, collect⟩ | ⟨noFile, maps, vias, covers⟩
  · have readMaps : readPositions rel caches r reply.access.withPM s.attributes = some s.attributes := by
      rw [show reply.access.withPM = [] from noMaps]
      rfl
    rw [fetch_eq readData readMaps, show reply.access.viaPM = [] from noVias]
    by_cases empty : reply.collectFromFile = []
    · rw [if_neg fun some => some empty]
      refine convertPositions_cases filled inside line cached (fun c mem needs => ?_) start
      have := (collect c).2 ⟨mem, needs⟩
      rw [empty] at this
      simp at this
    · rw [if_pos (show reply.access.withFile ≠ [] from empty)]
      exact parseLine_cases filled inside line last collect empty cached start
  · have anchored : ∀ {i x}, Maps reply.mapReadFromPM i x → Readable rel records caches .positions i x r := by
      intro i x there
      obtain ⟨c, mem, b, closest, rfl, rfl⟩ := maps there
      exact anchors mem closest
    obtain ⟨attributes, readMaps, known⟩ := readPositions_eq here noEmpty.anchors anchored s.attributes
    have zero : (attributes 0).pointer = 0 := by
      by_cases isAnchor : ∃ i, Maps reply.mapReadFromPM i 0
      · rw [(known 0).1 isAnchor]
        rfl
      · rw [(known 0).2 (not_exists.1 isAnchor)]
        exact start
    have ranges : ∀ via ∈ reply.readViaPM, via.col + via.forward < rel.natts ∧ via.backward ≤ via.col := by
      intro via mem
      obtain ⟨⟨i, there⟩, backward, forward⟩ := vias via mem
      obtain ⟨-, -, -, -, -, bound, -⟩ := anchored there
      refine ⟨?_, backward⟩
      rcases forward with none | reached
      · omega
      · exact inside _ reached
    obtain ⟨reached, -, keepsStart⟩ := record.foldl_viaPM_right ranges
      (fun via mem => (known via.col).1 (vias via mem).1)
    rw [fetch_eq readData readMaps, line, if_neg fun some => some noFile]
    have result := convertPositions_cases (s := s) filled inside line cached (fun c mem needs => by
      obtain ⟨via, mem', above, below⟩ := covers c mem needs
      exact reached via mem' c above below) (keepsStart zero)
    rwa [line] at result

end

end

end

/-! ### Writing caches -/

/-- Slots of one row have been written: those named by `writes`, with `cell`. -/
structure Wrote (row : Nat) (writes : Nat → Nat → Prop) (cell : Nat → Cell D)
    (caches caches' : List (Cache D)) : Prop where
  length : caches'.length = caches.length
  cells : ∀ {i : Nat} {cache : Cache D}, caches[i]? = some cache →
    ∃ cells, caches'[i]? = some { cache with cells := cells } ∧
      (∀ c, writes i c → cells c row = cell c ∧ cache.hasBuffer row = true) ∧
      ∀ c r, ¬ (r = row ∧ writes i c) → cells c r = cache.cells c r

theorem Wrote.none {writes : Nat → Nat → Prop} (never : ∀ i c, ¬ writes i c) : Wrote row writes cell caches caches :=
  ⟨rfl, fun {_ cache} here => ⟨cache.cells, here, fun c there => absurd there (never _ c), fun _ _ _ => rfl⟩⟩

/-- A write to one cache and then to others. -/
theorem Wrote.trans {a b c : List (Cache D)} {writes writes' : Nat → Nat → Prop} (first : Wrote row writes cell a b)
    (second : Wrote row writes' cell b c) : Wrote row (fun i c => writes i c ∨ writes' i c) cell a c where
  length := second.length.trans first.length
  cells {i cache} here := by
    obtain ⟨cells, here', written, same⟩ := first.cells here
    obtain ⟨cells', here'', written', same'⟩ := second.cells here'
    refine ⟨cells', here'', fun col writes => ?_, fun col r none => ?_⟩
    · by_cases again : writes' i col
      · exact written' col again
      · rw [same' col row fun both => again both.2]
        exact written col (writes.resolve_right again)
    · rw [same' col r fun both => none ⟨both.1, .inr both.2⟩]
      exact same col r fun both => none ⟨both.1, .inl both.2⟩

/-- A loop that writes caches either writes everything, or meets a cache without a buffer for
the row. -/
theorem writeEntries_cases {set : Cache D → List Nat → Option (Cache D)}
    (isSet : ∀ cache cols, set cache cols = cache.setCells cols row cell) (occupied : Occupied entries)
    (there : ∀ {i c}, Maps entries i c → ∃ cache, caches[i]? = some cache) : (writeEntries set entries caches = none ∧
        ∃ i c cache, Maps entries i c ∧ caches[i]? = some cache ∧ cache.hasBuffer row = false) ∨
      ∃ caches', writeEntries set entries caches = some caches' ∧ Wrote row (Maps entries) cell caches caches' := by
  induction entries generalizing caches with
  | nil => exact .inr ⟨caches, rfl, .none not_maps_nil⟩
  | cons entry entries ih =>
    have split : ∀ {i c}, Maps (entry :: entries) i c ↔
        (entry.cache = i ∧ c ∈ entry.cols) ∨ Maps entries i c := by
      intro i c
      simp [Maps]
    obtain ⟨first, mem⟩ := exists_mem_of_ne_nil _ (occupied entry (by simp))
    obtain ⟨cache, here⟩ := there (split.2 (.inl ⟨rfl, mem⟩))
    have inside := (List.getElem?_eq_some_iff.1 here).1
    have some : entry.cols ≠ [] := ne_nil_of_mem mem
    unfold writeEntries
    rw [foldlM_cons, here]
    by_cases buffer : cache.hasBuffer row = true
    · let cells := fun c r => if r = row ∧ c ∈ entry.cols then cell c else cache.cells c r
      have stored : set cache entry.cols = Option.some { cache with cells := cells } := by
        rw [isSet, Cache.setCells, if_pos (.inr buffer)]
      have at' : ∀ j, (caches.set entry.cache { cache with cells := cells })[j]? =
          if entry.cache = j then Option.some { cache with cells := cells } else caches[j]? := by
        intro j
        rw [getElem?_set]
        by_cases same : entry.cache = j
        · rw [if_pos same, if_pos same, if_pos inside]
        · rw [if_neg same, if_neg same]
      have one : Wrote row (fun i c => entry.cache = i ∧ c ∈ entry.cols) cell caches
          (caches.set entry.cache { cache with cells := cells }) := by
        refine ⟨length_set .., fun {i cache'} here' => ?_⟩
        rw [at']
        by_cases same : entry.cache = i
        · subst same
          obtain rfl : cache = cache' := Option.some.inj (here.symm.trans here')
          refine ⟨cells, by rw [if_pos rfl], fun c writes => ⟨if_pos ⟨rfl, writes.2⟩, buffer⟩, fun c r none => ?_⟩
          exact if_neg fun both => none ⟨both.1, rfl, both.2⟩
        · rw [if_neg same, here']
          exact ⟨cache'.cells, rfl, fun c writes => absurd writes.1 same, fun _ _ _ => rfl⟩
      simp only [Option.pure_def, Option.bind_eq_bind, Option.bind_some, stored]
      have there' : ∀ {i c}, Maps entries i c →
          ∃ cache', (caches.set entry.cache { cache with cells := cells })[i]? = Option.some cache' := by
        intro i c maps
        obtain ⟨cache', here'⟩ := there (split.2 (.inr maps))
        obtain ⟨_, here'', -⟩ := one.cells here'
        exact ⟨_, here''⟩
      rcases ih (fun other mem => occupied other (mem_cons_of_mem _ mem)) there' with
        ⟨fails, i, c, cache', maps, here', lacks⟩ | ⟨caches', run, wrote⟩
      · refine .inl ⟨fails, ?_⟩
        rw [at'] at here'
        by_cases same : entry.cache = i
        · rw [if_pos same] at here'
          obtain rfl := Option.some.inj here'
          exact ⟨i, c, cache, split.2 (.inr maps), by rw [← same]; exact here, lacks⟩
        · rw [if_neg same] at here'
          exact ⟨i, c, cache', split.2 (.inr maps), here', lacks⟩
      · refine .inr ⟨caches', run, ?_⟩
        have both := one.trans wrote
        simp only [← split] at both
        exact both
    · refine .inl ⟨?_, entry.cache, first, cache, split.2 (.inl ⟨rfl, mem⟩), here, by simpa using buffer⟩
      simp only [Option.pure_def, Option.bind_eq_bind, Option.bind_some, isSet, Cache.setCells, some, buffer,
        Bool.false_eq_true, or_self, if_false, Option.bind_none]

variable (rel records) in
/-- Nothing but slots has changed, and those that have are right now. -/
structure Improves (caches caches' : List (Cache D)) : Prop where
  length : caches'.length = caches.length
  cells : ∀ {i : Nat} {cache : Cache D}, caches[i]? = some cache →
    ∃ cells, caches'[i]? = some { cache with cells := cells } ∧
      ∀ c r, cells c r = cache.cells c r ∨ CellRight rel records cache.type c r (cells c r)

namespace Improves

variable {a b c : List (Cache D)}

theorem refl (caches : List (Cache D)) : Improves rel records caches caches :=
  ⟨rfl, fun {_ cache} here => ⟨cache.cells, here, fun _ _ => .inl rfl⟩⟩

theorem trans (first : Improves rel records a b) (second : Improves rel records b c) : Improves rel records a c where
  length := second.length.trans first.length
  cells {i cache} here := by
    obtain ⟨cells, here', same⟩ := first.cells here
    obtain ⟨cells', here'', same'⟩ := second.cells here'
    refine ⟨cells', here'', fun col r => ?_⟩
    rcases same' col r with kept | right
    · rw [kept]
      exact same col r
    · exact .inr right

variable {i : Nat}

/-- Going back: what is known of a cache apart from its slots was so before. -/
theorem exists_before (improves : Improves rel records a b) {cache' : Cache D} (here' : b[i]? = some cache') :
    ∃ cache cells, a[i]? = some cache ∧ cache' = { cache with cells := cells } := by
  have inside := (List.getElem?_eq_some_iff.1 here').1
  rw [improves.length] at inside
  have here := List.getElem?_eq_getElem inside
  obtain ⟨cells, here'', -⟩ := improves.cells here
  exact ⟨a[i], cells, here, Option.some.inj (here'.symm.trans here'')⟩

section

variable (improves : Improves rel records a b) {col r : Nat} {cache : Cache D} {t : CacheType}
  (here : a[i]? = some cache) (type : cache.type = t)

include improves here type

theorem right (right : CellRight rel records t col r (cellAt a i col r)) :
    CellRight rel records t col r (cellAt b i col r) := by
  obtain ⟨cells, here', same⟩ := improves.cells here
  rw [cellAt_eq here'] at *
  rw [cellAt_eq here] at right
  rcases same col r with kept | right'
  · simp only [kept]
    exact right
  · rw [← type]
    exact right'

theorem readable (readable : Readable rel records a t i col r) :
    Readable rel records b t i col r := by
  have right := improves.right here type readable.right
  obtain ⟨cells, here', -⟩ := improves.cells here
  obtain ⟨cache', found, buffer, -⟩ := readable
  obtain rfl : cache = cache' := Option.some.inj (here.symm.trans found)
  rw [cellAt_eq here'] at right
  exact ⟨_, here', buffer, right⟩

end

end Improves

/-- A loop that writes right slots into caches of one type. -/
theorem writeEntries_right (set : Cache D → List Nat → Option (Cache D)) {t : CacheType}
    (isSet : ∀ cache cols, set cache cols = cache.setCells cols row cell) (occupied : Occupied entries)
    (typed : ∀ {i c}, Maps entries i c → ∃ cache, caches[i]? = some cache ∧ cache.type = t)
    (right : ∀ {i c}, Maps entries i c → CellRight rel records t c row (cell c)) :
    (writeEntries set entries caches = none ∧
        ∃ i c cache, Maps entries i c ∧ caches[i]? = some cache ∧ cache.hasBuffer row = false) ∨
      ∃ caches', writeEntries set entries caches = some caches' ∧ Improves rel records caches caches' ∧
        ∀ {i c}, Maps entries i c → Readable rel records caches' t i c row := by
  rcases writeEntries_cases isSet occupied (fun maps => (typed maps).imp fun _ => And.left) with
    fails | ⟨caches', run, wrote⟩
  · exact .inl fails
  · refine .inr ⟨caches', run, ⟨wrote.length, fun {i cache} here => ?_⟩, fun {i c} maps => ?_⟩
    · obtain ⟨cells, here', written, same⟩ := wrote.cells here
      refine ⟨cells, here', fun c r => ?_⟩
      by_cases writes : r = row ∧ Maps entries i c
      · obtain ⟨rfl, maps⟩ := writes
        obtain ⟨cache', here'', type⟩ := typed maps
        obtain rfl : cache = cache' := Option.some.inj (here.symm.trans here'')
        rw [(written c maps).1, type]
        exact .inr (right maps)
      · exact .inl (same c r writes)
    · obtain ⟨cache, here, -⟩ := typed maps
      obtain ⟨cells, here', written, -⟩ := wrote.cells here
      obtain ⟨cell, buffer⟩ := written c maps
      exact ⟨_, here', buffer, by simpa only [cell] using right maps⟩

/-- The lists of a node that say what to write are those of a call of `FillRow`. -/
structure WritesAs (n : Strategy) (reply : FillRowReply) : Prop where
  byValue : n.writeToCacheByValue = reply.mapDataAddByValue
  byRef : n.writeToCacheByRef = reply.mapDataAddByRef
  positions : n.writeToPM = reply.mapPositionsAdd

/-- The columns that a node writes to caches of a type. -/
def RowRequest.write (request : RowRequest) : CacheType → List Nat
  | .data => request.writeData
  | .positions => request.writePositions

/-- **Writing the caches of a row.** -/
theorem writeCaches_cases {byValue : Nat → Bool} {cols : List Nat} {request : RowRequest} {node : Nat → Node}
    {reply : FillRowReply} {n : Strategy} {values : Nat → Value D} {attributes : Nat → PMPair}
    (filled : FilledRow byValue cols request node reply) (noEmpty : reply.NoEmpty) (as : WritesAs n reply)
    (inside : ∀ c ∈ cols, c < rel.natts) (here : records[r]? = some record)
    (typed : ∀ {t c i}, (node c).mark t = .add i → ∃ cache, caches[i]? = some cache ∧ cache.type = t)
    (data : ∀ c ∈ cols, ∀ i, c ∈ request.writeData → (node c).mark .data = .add i →
      record.Accepts rel.input c ∧ values c = record.value rel.input c)
    (positions : ∀ c ∈ cols, ∀ i, c ∈ request.writePositions → (node c).mark .positions = .add i →
      attributes c = record.pair c) : (writeCaches n r values attributes caches = none ∧ ∃ t c i cache, c ∈ cols ∧
        (node c).mark t = .add i ∧ caches[i]? = some cache ∧ cache.hasBuffer r = false) ∨
      ∃ caches', writeCaches n r values attributes caches = some caches' ∧ Improves rel records caches caches' ∧
        ∀ {t c i}, c ∈ cols → c ∈ request.write t → (node c).mark t = .add i →
          Readable rel records caches' t i c r := by
  have kept : ∀ {caches'}, Improves rel records caches caches' → ∀ {t c i}, (node c).mark t = .add i →
      ∃ cache, caches'[i]? = some cache ∧ cache.type = t := by
    intro caches' improves t c i mark
    obtain ⟨cache, here, type⟩ := typed mark
    obtain ⟨cells, here', -⟩ := improves.cells here
    exact ⟨_, here', type⟩
  have lacks : ∀ {caches'}, Improves rel records caches caches' → ∀ {t c i cache'}, c ∈ cols →
      (node c).mark t = .add i → caches'[i]? = some cache' → cache'.hasBuffer r = false →
      ∃ t c i cache, c ∈ cols ∧ (node c).mark t = .add i ∧ caches[i]? = some cache ∧
        cache.hasBuffer r = false := by
    intro caches' improves t c i cache' mem mark here' none
    obtain ⟨cache, cells, here, rfl⟩ := improves.exists_before here'
    exact ⟨t, c, i, cache, mem, mark, here, none⟩
  unfold writeCaches
  rw [as.byValue, as.byRef, as.positions]
  rcases writeEntries_right (t := .data) (fun cache cols => noDBCacheSetDatumVector cache values cols r)
      (fun _ _ => rfl) noEmpty.addByValue
      (fun maps => typed (filled.addByValue.1 maps).2.2.1)
      (fun {i c} maps => by
        obtain ⟨mem, writes, mark, -⟩ := filled.addByValue.1 maps
        obtain ⟨accepts, value⟩ := data c mem i writes mark
        exact ⟨record, here, inside c mem, accepts, congrArg Cell.datum value⟩) with
    ⟨fails, i, c, cache, maps, here', none⟩ | ⟨caches₁, run₁, improves₁, right₁⟩
  · obtain ⟨mem, -, mark, -⟩ := filled.addByValue.1 maps
    exact .inl ⟨by rw [fails]; rfl, lacks (.refl _) mem mark here' none⟩
  rcases writeEntries_right (t := .data) (fun cache cols => noDBCacheSetDatumRefVector cache values cols r)
      (fun _ _ => rfl) noEmpty.addByRef
      (fun maps => kept improves₁ (filled.addByRef.1 maps).2.2.1)
      (fun {i c} maps => by
        obtain ⟨mem, writes, mark, -⟩ := filled.addByRef.1 maps
        obtain ⟨accepts, value⟩ := data c mem i writes mark
        exact ⟨record, here, inside c mem, accepts, congrArg Cell.datum ((refDatum_eq _).trans value)⟩) with
    ⟨fails, i, c, cache, maps, here', none⟩ | ⟨caches₂, run₂, improves₂, right₂⟩
  · obtain ⟨mem, -, mark, -⟩ := filled.addByRef.1 maps
    exact .inl ⟨by rw [run₁]; exact congrArg (Option.bind · _) fails, lacks improves₁ mem mark here' none⟩
  have improves := improves₁.trans improves₂
  rcases writeEntries_right (t := .positions)
      (fun cache cols => noDBCacheSetPMPairVector cache attributes cols r)
      (fun _ _ => rfl) noEmpty.addPositions
      (fun maps => kept improves (filled.addPositions.1 maps).2.2)
      (fun {i c} maps => by
        obtain ⟨mem, writes, mark⟩ := filled.addPositions.1 maps
        exact ⟨record, here, inside c mem, congrArg Cell.pair (positions c mem i writes mark)⟩) with
    ⟨fails, i, c, cache, maps, here', none⟩ | ⟨caches₃, run₃, improves₃, right₃⟩
  · obtain ⟨mem, -, mark⟩ := filled.addPositions.1 maps
    refine .inl ⟨?_, lacks improves mem mark here' none⟩
    rw [run₁, Option.bind_eq_bind, Option.bind_some, run₂, Option.bind_some]
    exact fails
  · refine .inr ⟨caches₃, ?_, improves.trans improves₃, fun {t c i} mem writes mark => ?_⟩
    · rw [run₁, Option.bind_eq_bind, Option.bind_some, run₂, Option.bind_some]
      exact run₃
    · cases t with
      | data =>
        obtain ⟨cache₁, here₁, type₁⟩ := kept improves₁ mark
        obtain ⟨cache₂, here₂, type₂⟩ := kept improves mark
        by_cases pass : byValue c = true
        · exact improves₃.readable here₂ type₂ (improves₂.readable here₁ type₁
            (right₁ (filled.addByValue.2 ⟨mem, writes, mark, pass⟩)))
        · exact improves₃.readable here₂ type₂
            (right₂ (filled.addByRef.2 ⟨mem, writes, mark, by simpa using pass⟩))
      | positions => exact right₃ (filled.addPositions.2 ⟨mem, writes, mark⟩)

end

end PostgresRaw
