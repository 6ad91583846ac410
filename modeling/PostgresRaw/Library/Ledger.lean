import Mathlib.Order.Basic
import Mathlib.Data.Nat.Find

/-!
# Ledgers of books with row ranges

A *book* claims a range of rows for every column registered in it.  Books only ever get further
columns or a different end, and both are decided ahead of time: a *plan* cuts the rows into
nodes and marks, for each node and column, the book that will be written there.  A plan can

* **grow** a book: mark all its columns in a node behind its end, or
* **open** a book for a column: register the column in a book that begins at the node, and mark
  it in all nodes that the book has rows of.

The plan is executed node by node, and execution may stop early.  The question is when the
claims are still true afterwards: what keeps a book from claiming rows of a column that nobody
has written.

The answer has two halves.  A plan made by these two rules is coherent (`BookPlan.Planned`), because a
book may only grow if no book for its columns begins behind its end.  And a coherent plan that
is executed up to a row `q` leaves a tidy ledger (`BookPlan.Ready.tidy_after`) if no book is opened at or
behind `q`, where execution never got to it (`BookPlan.StopsWell`).
-/

universe u v

/-- Which rows of which columns the books claim. -/
structure Ledger (β : Type u) (γ : Type v) where
  start : β → Nat
  stop : β → Nat
  has : β → γ → Prop

namespace Ledger

variable {β : Type u} {γ : Type v}

/-- The book claims the row for the column. -/
def Claims (L : Ledger β γ) (b : β) (c : γ) (r : Nat) : Prop :=
  L.has b c ∧ L.start b ≤ r ∧ r < L.stop b

/-- Some book claims the row for the column. -/
def Covers (L : Ledger β γ) (c : γ) (r : Nat) : Prop := ∃ b, L.Claims b c r

/-- No book is empty, no row of a column is claimed twice, and the rows claimed for a column are
the first ones. -/
structure Tidy (L : Ledger β γ) : Prop where
  nonempty : ∀ {b c}, L.has b c → L.start b < L.stop b
  disjoint : ∀ {b b' c r}, L.Claims b c r → L.Claims b' c r → b = b'
  initial : ∀ {c r r'}, L.Covers c r → r' ≤ r → L.Covers c r'

/-- Books with overlapping ranges that share a column are the same. -/
theorem eq_of_overlap {L : Ledger β γ} (disjoint : ∀ {b b' c r}, L.Claims b c r → L.Claims b' c r → b = b')
    {b b' : β} {c : γ} (has : L.has b c) (has' : L.has b' c) (range : L.start b < L.stop b)
    (range' : L.start b' < L.stop b') (before : L.start b < L.stop b') (before' : L.start b' < L.stop b) : b = b' :=
  disjoint (r := max (L.start b) (L.start b')) ⟨has, by omega, by omega⟩ ⟨has', by omega, by omega⟩

end Ledger

/-- The rows `row 0 < row 1 < .. < row count` that cut a range of rows into nodes. -/
structure Cuts where
  row : Nat → Nat
  count : Nat
  increasing : ∀ {a a'}, a < a' → a' ≤ count → row a < row a'

namespace Cuts

variable (k : Cuts)

theorem row_le {a a' : Nat} (le : a ≤ a') (inside : a' ≤ k.count) : k.row a ≤ k.row a' := by
  rcases lt_or_eq_of_le le with lt | rfl
  · exact le_of_lt (k.increasing lt inside)
  · exact le_rfl

theorem lt_of_row_lt {a a' : Nat} (inside : a ≤ k.count) (lt : k.row a < k.row a') : a < a' := by
  by_contra notLt
  have := k.row_le (not_lt.1 notLt) inside
  omega

/-- The node of a row. -/
def InNode (a r : Nat) : Prop := k.row a ≤ r ∧ r < k.row (a + 1)

theorem exists_node {r n : Nat} (first : k.row 0 ≤ r) (last : r < k.row n) : ∃ a, a < n ∧ k.InNode a r := by
  induction n with
  | zero => omega
  | succ n ih =>
    by_cases before : r < k.row n
    · obtain ⟨a, less, node⟩ := ih before
      exact ⟨a, by omega, node⟩
    · exact ⟨n, by omega, by omega, last⟩

theorem node_unique {a a' r : Nat} (inside : a < k.count) (inside' : a' < k.count)
    (node : k.InNode a r) (node' : k.InNode a' r) : a = a' := by
  obtain ⟨first, last⟩ := node
  obtain ⟨first', last'⟩ := node'
  by_contra different
  rcases Nat.lt_or_gt_of_ne different with lt | gt
  · have := k.row_le (show a + 1 ≤ a' from lt) (by omega)
    omega
  · have := k.row_le (show a' + 1 ≤ a from gt) (by omega)
    omega

end Cuts

namespace Ledger

variable {β : Type u} {γ : Type v}

/-- Nothing claims the first row of the node for the column. -/
def Missing (L : Ledger β γ) (k : Cuts) (a : Nat) (c : γ) : Prop := ¬ L.Covers c (k.row a)

/-- Books begin and end at cuts, or before all of them. -/
structure Aligned (L : Ledger β γ) (k : Cuts) : Prop where
  starts : ∀ {b c}, L.has b c → L.start b ≤ k.row 0 ∨ ∃ a, a < k.count ∧ L.start b = k.row a
  stops : ∀ {b c}, L.has b c → L.stop b ≤ k.row 0 ∨ ∃ a, a ≤ k.count ∧ L.stop b = k.row a

variable {k : Cuts} {L : Ledger β γ} {a : Nat} {c : γ}

theorem Tidy.missing_of_le (tidy : L.Tidy) {a' : Nat} (missing : L.Missing k a c) (le : k.row a ≤ k.row a') :
    L.Missing k a' c :=
  fun covers => missing (tidy.initial covers le)

/-- A book that claims the first row of a node claims the node. -/
theorem Aligned.claims_node (aligned : L.Aligned k) {r : Nat} {b : β} (inside : a < k.count) (node : k.InNode a r)
    (claims : L.Claims b c (k.row a)) : L.Claims b c r := by
  obtain ⟨has, first, last⟩ := claims
  have zero := k.row_le (Nat.zero_le a) (le_of_lt inside)
  refine ⟨has, le_trans first node.1, ?_⟩
  rcases aligned.stops has with before | ⟨a', inside', stop⟩
  · omega
  · rw [stop] at last ⊢
    have := k.row_le (show a + 1 ≤ a' from k.lt_of_row_lt (le_of_lt inside) last) inside'
    have := node.2
    omega

/-- A node is covered as its first row is. -/
theorem Aligned.covers_node (aligned : L.Aligned k) {r : Nat} (inside : a < k.count) (node : k.InNode a r)
    (covers : L.Covers c (k.row a)) : L.Covers c r := by
  obtain ⟨b, claims⟩ := covers
  exact ⟨b, aligned.claims_node inside node claims⟩

end Ledger

/-! ### Plans -/

/-- A ledger with the columns that a plan has registered, and the book that the plan writes for
a column in a node. -/
structure BookPlan (β : Type u) (γ : Type v) extends Ledger β γ where
  mark : Nat → γ → Option β

namespace BookPlan

variable {β : Type u} {γ : Type v} (L : Ledger β γ) (k : Cuts) (w : γ → Prop)

/-- The column has been registered in the book by the plan, and the book begins at the node or
has rows of it. -/
def Opens (P : BookPlan β γ) (a : Nat) (c : γ) (b : β) : Prop :=
  ¬ L.has b c ∧ (P.start b = k.row a ∨ k.row a < P.stop b)

/-- The book is written in all nodes between its end and the node `a`, for all its columns, and
no book for a column to be written in `a` begins behind its end. -/
structure Grows (P : BookPlan β γ) (a : Nat) (b : β) : Prop where
  nonempty : P.start b < P.stop b
  before : P.stop b ≤ k.row a
  all : ∀ {d}, P.has b d → ∀ {a'}, a' ≤ a → P.stop b ≤ k.row a' → P.mark a' d = some b
  alone : ∀ {b' d}, P.has b' d → w d → L.Missing k a d → (L.has b' d ∨ P.start b' < k.row a) →
    P.start b' < P.stop b

/-- **A coherent plan** from the ledger `L` for the columns `w`, with the nodes before `i` and
the columns `done` of node `i` planned. -/
structure Planned (P : BookPlan β γ) (i : Nat) (done : γ → Prop) : Prop where
  keeps : ∀ {b c}, L.has b c → P.has b c
  same : ∀ {b c}, L.has b c → P.start b = L.start b ∧ P.stop b = L.stop b
  /-- a new book claims nothing -/
  fresh : ∀ {b c}, P.has b c → (∀ d, ¬ L.has b d) → P.stop b = P.start b
  add : ∀ {a c b}, P.mark a c = some b →
    w c ∧ a < k.count ∧ L.Missing k a c ∧ P.has b c ∧ P.start b ≤ k.row a
  every : ∀ {a c}, w c → a < k.count → L.Missing k a c → (a < i ∨ a = i ∧ done c) →
    ∃ b, P.mark a c = some b
  registered : ∀ {b c}, P.has b c → ¬ L.has b c → ∃ a, a ≤ i ∧ P.start b = k.row a ∧
    P.mark a c = some b ∧
      ∀ {a'}, a < a' → a' < k.count → k.row a' < P.stop b → P.mark a' c = some b
  how : ∀ {a c b}, P.mark a c = some b → Opens L k P a c b ∨ a ≤ i ∧ Grows L k w P a b
  disjoint : ∀ {b b' c r}, P.Claims b c r → P.Claims b' c r → b = b'

variable {L k w} {P P' : BookPlan β γ} {i : Nat} {done : γ → Prop}

/-- The empty plan. -/
theorem planned_empty (tidy : L.Tidy) : Planned L k w ⟨L, fun _ _ => none⟩ 0 (fun _ => False) where
  keeps has := has
  same _ := ⟨rfl, rfl⟩
  fresh has unknown := absurd has (unknown _)
  add mark := by cases mark
  every _ _ _ planned := by rcases planned with before | ⟨-, no⟩ <;> [omega; exact no.elim]
  registered has new := absurd has new
  how mark := by cases mark
  disjoint := tidy.disjoint

namespace Planned

/-- Columns that need no mark, or have one, can be counted as done. -/
theorem mono {done' : γ → Prop} (planned : Planned L k w P i done)
    (more : ∀ {c}, done' c → done c ∨ ¬ w c ∨ ¬ L.Missing k i c ∨ ∃ b, P.mark i c = some b) :
    Planned L k w P i done' where
  __ := planned
  every := by
    rintro a c writes inside missing (before | ⟨rfl, isDone⟩)
    · exact planned.every writes inside missing (.inl before)
    · rcases more isDone with old | unwritten | covered | marked
      · exact planned.every writes inside missing (.inr ⟨rfl, old⟩)
      · exact absurd writes unwritten
      · exact absurd missing covered
      · exact marked

/-- A node is planned when all its columns are. -/
theorem next (planned : Planned L k w P i done) (all : ∀ {c}, w c → done c) :
    Planned L k w P (i + 1) (fun _ => False) where
  __ := planned
  every := by
    rintro a c writes inside missing (before | ⟨-, no⟩)
    · refine planned.every writes inside missing ?_
      by_cases same : a = i
      · exact .inr ⟨same, all writes⟩
      · exact .inl (by omega)
    · exact no.elim
  registered has new := by
    obtain ⟨a, le, rest⟩ := planned.registered has new
    exact ⟨a, by omega, rest⟩
  how mark := by
    rcases planned.how mark with opens | ⟨le, grows⟩
    · exact .inl opens
    · exact .inr ⟨by omega, grows⟩

/-- The range of a book without columns does not matter. -/
theorem relabel (planned : Planned L k w P i done) (P' : BookPlan β γ)
    (has : ∀ {b c}, P'.has b c ↔ P.has b c) (mark : P'.mark = P.mark)
    (range : ∀ {b c}, P.has b c → P'.start b = P.start b ∧ P'.stop b = P.stop b) : Planned L k w P' i done := by
  have hasOfMark : ∀ {a c b}, P.mark a c = some b → P.has b c :=
    fun h => (planned.add h).2.2.2.1
  refine ⟨fun h => has.2 (planned.keeps h), fun h => ?_, fun h unknown => ?_, fun h => ?_, ?_,
    fun h new => ?_, fun h => ?_, fun h h' => ?_⟩
  · obtain ⟨start, stop⟩ := range (planned.keeps h)
    rw [start, stop]
    exact planned.same h
  · obtain ⟨start, stop⟩ := range (has.1 h)
    rw [start, stop]
    exact planned.fresh (has.1 h) unknown
  · rw [mark] at h
    obtain ⟨writes, inside, missing, there, le⟩ := planned.add h
    exact ⟨writes, inside, missing, has.2 there, by rwa [(range there).1]⟩
  · rw [mark]; exact planned.every
  · obtain ⟨start, stop⟩ := range (has.1 h)
    rw [start, stop, mark]
    exact planned.registered (has.1 h) new
  · rw [mark] at h
    obtain ⟨start, stop⟩ := range (hasOfMark h)
    rcases planned.how h with ⟨new, rows⟩ | ⟨le, grows⟩
    · exact .inl ⟨new, by rwa [start, stop]⟩
    · refine .inr ⟨le, by rw [start, stop]; exact grows.nonempty, by rw [stop]; exact grows.before,
        fun {d} h' {a'} le' rows => ?_, fun h' writes missing early => ?_⟩
      · rw [stop] at rows
        rw [mark]
        exact grows.all (has.1 h') le' rows
      · rw [stop, (range (has.1 h')).1]
        rw [(range (has.1 h')).1] at early
        exact grows.alone (has.1 h') writes missing early
  · obtain ⟨there, first, last⟩ := h
    obtain ⟨there', first', last'⟩ := h'
    obtain ⟨start, stop⟩ := range (has.1 there)
    obtain ⟨start', stop'⟩ := range (has.1 there')
    rw [start] at first
    rw [stop] at last
    rw [start'] at first'
    rw [stop'] at last'
    exact planned.disjoint ⟨has.1 there, first, last⟩ ⟨has.1 there', first', last'⟩

variable {b : β} {c : γ}

section

variable (planned : Planned L k w P i done)
include planned

/-- A book that the plan has opened for a column has left its mark in the nodes it has rows of. -/
theorem stop_le_of_not_has (inside : i < k.count) (unmarked : P.mark i c = none)
    (has : P.has b c) (new : ¬ L.has b c) : P.stop b ≤ k.row i := by
  by_contra behind
  obtain ⟨a, le, -, mark, rest⟩ := planned.registered has new
  rcases lt_or_eq_of_le le with lt | rfl
  · rw [rest lt inside (not_le.1 behind)] at unmarked; cases unmarked
  · rw [mark] at unmarked; cases unmarked

/-- A column that is not marked yet is missing from the rows behind the books that have it. -/
theorem stop_le (inside : i < k.count) (missing : L.Missing k i c)
    (unmarked : P.mark i c = none) (has : P.has b c) (starts : P.start b ≤ k.row i) : P.stop b ≤ k.row i := by
  by_cases old : L.has b c
  · obtain ⟨start, stop⟩ := planned.same old
    by_contra behind
    exact missing ⟨b, old, by omega, by omega⟩
  · exact planned.stop_le_of_not_has inside unmarked has old

/-- What the marks of a column say if a book with the column can grow: where the column is
marked between the end of the book and the node, it is marked for this book. -/
theorem eq_of_mark {a : Nat} {b' : β} {d : γ} (has : P.has b d)
    (range : P.start b < P.stop b) (alone : ∀ {e d}, P.has e d → w d → L.Missing k i d → P.start e < P.stop b)
    (missing : L.Missing k i d) (rows : P.stop b ≤ k.row a) (mark : P.mark a d = some b') : b' = b := by
  obtain ⟨writes, -, missing', has', -⟩ := planned.add mark
  have before := alone has' writes missing
  rcases planned.how mark with ⟨-, opens⟩ | ⟨-, grows⟩
  · exact Ledger.eq_of_overlap planned.disjoint has' has (by omega) range (by omega) (by omega)
  · have := grows.alone has writes missing' (.inr (by omega))
    exact Ledger.eq_of_overlap planned.disjoint has' has grows.nonempty range before this

/-- A plan that keeps the marks has one for every column that is done. -/
theorem every_of_kept (kept : ∀ {a d e}, P.mark a d = some e → P'.mark a d = some e) (mark : P'.mark i c = some b) {a : Nat} {d : γ}
    (writes : w d) (inside : a < k.count) (missing : L.Missing k a d) (isDone : a < i ∨ a = i ∧ (done d ∨ d = c)) :
    ∃ e, P'.mark a d = some e := by
  have old (before : a < i ∨ a = i ∧ done d) : ∃ e, P'.mark a d = some e :=
    (planned.every writes inside missing before).imp fun _ => kept
  rcases isDone with lt | ⟨rfl, isDone | rfl⟩
  · exact old (.inl lt)
  · exact old (.inr ⟨rfl, isDone⟩)
  · exact ⟨b, mark⟩

/-- **Growing a book** that has the column, whose columns are all to be written in the node, and
behind whose end no book for such a column begins. -/
theorem grow (tidy : L.Tidy) (inside : i < k.count) (missing : L.Missing k i c)
    (unmarked : P.mark i c = none) (has : P.has b c) (starts : P.start b ≤ k.row i)
    (columns : ∀ {d}, P.has b d → w d ∧ L.Missing k i d)
    (alone : ∀ {e d}, P.has e d → w d → L.Missing k i d → P.start e < P.stop b) (ledger : P'.toLedger = P.toLedger)
    (marked : ∀ {d}, P.has b d → P'.mark i d = some b)
    (others : ∀ {a d}, ¬ (a = i ∧ P.has b d) → P'.mark a d = P.mark a d) :
    Planned L k w P' i (fun d => done d ∨ d = c) := by
  obtain ⟨ledger', mark'⟩ := P'
  obtain rfl : ledger' = P.toLedger := ledger
  have range : P.start b < P.stop b := alone has (columns has).1 missing
  have before := planned.stop_le inside missing unmarked has starts
  -- No mark is overwritten by another one.
  have kept : ∀ {a d e}, P.mark a d = some e → mark' a d = some e := by
    intro a d e mark
    by_cases here : a = i ∧ P.has b d
    · obtain ⟨rfl, there⟩ := here
      rw [planned.eq_of_mark there range alone (columns there).2 before mark]
      exact marked there
    · exact (others here).trans mark
  -- All columns of the book are marked from its end down to this node.
  have contiguous : ∀ {d}, P.has b d → ∀ {a}, a ≤ i → P.stop b ≤ k.row a → mark' a d = some b := by
    intro d there a le rows
    rcases lt_or_eq_of_le le with lt | rfl
    · obtain ⟨writes, missing'⟩ := columns there
      have missing'' : L.Missing k a d := by
        rintro ⟨e, old, first, last⟩
        obtain ⟨start, stop⟩ := planned.same old
        have early := alone (planned.keeps old) writes missing'
        have same := Ledger.eq_of_overlap planned.disjoint (planned.keeps old) there
          (by rw [start, stop]; exact tidy.nonempty old) range early (by omega)
        rw [same] at stop last
        omega
      obtain ⟨e, mark⟩ := planned.every writes (by omega) missing'' (.inl lt)
      rw [kept mark, planned.eq_of_mark there range alone missing' rows mark]
    · exact marked there
  have grows : Grows L k w ⟨P.toLedger, mark'⟩ i b :=
    ⟨range, before, contiguous, fun there writes missing' _ => alone there writes missing'⟩
  have new : ∀ {a d e}, mark' a d = some e → a = i ∧ P.has b d ∧ e = b ∨ P.mark a d = some e := by
    intro a d e mark
    by_cases here : a = i ∧ P.has b d
    · obtain ⟨rfl, there⟩ := here
      exact .inl ⟨rfl, there, Option.some.inj (mark.symm.trans (marked there))⟩
    · exact .inr ((others here).symm.trans mark)
  refine ⟨planned.keeps, planned.same, planned.fresh, ?_, planned.every_of_kept kept (marked has), ?_, ?_, planned.disjoint⟩
  · intro a d e mark
    rcases new mark with ⟨rfl, there, rfl⟩ | old
    · exact ⟨(columns there).1, inside, (columns there).2, there, starts⟩
    · exact planned.add old
  · intro e d there new
    obtain ⟨a, le, first, mark, rest⟩ := planned.registered there new
    exact ⟨a, le, first, kept mark, fun lt inside' rows => kept (rest lt inside' rows)⟩
  · intro a d e mark
    rcases new mark with ⟨rfl, there, rfl⟩ | old
    · exact .inr ⟨le_rfl, grows⟩
    · refine (planned.how old).imp id fun ⟨le, grows'⟩ => ⟨le, grows'.nonempty, grows'.before, ?_, grows'.alone⟩
      exact fun {d} there' {a'} le' rows => kept (grows'.all there' le' rows)

/-- **Opening a book** that begins at the node for a column: the column is marked in the node
and in all further nodes that the book has rows of. -/
theorem open_ (tidy : L.Tidy) (inside : i < k.count) (writes : w c)
    (missing : L.Missing k i c) (unmarked : P.mark i c = none) (starts : P.start b = k.row i) (absent : ¬ P.has b c)
    (empty : (∀ d, ¬ P.has b d) → P.stop b = P.start b) (start : P'.start = P.start) (stop : P'.stop = P.stop)
    (hasIff : ∀ {e d}, P'.has e d ↔ P.has e d ∨ e = b ∧ d = c)
    (marked : ∀ {a}, a = i ∨ i < a ∧ a < k.count ∧ k.row a < P.stop b → P'.mark a c = some b)
    (others : ∀ {a d}, ¬ (d = c ∧ (a = i ∨ i < a ∧ a < k.count ∧ k.row a < P.stop b)) →
      P'.mark a d = P.mark a d) : Planned L k w P' i (fun d => done d ∨ d = c) := by
  obtain ⟨⟨start', stop', has'⟩, mark'⟩ := P'
  obtain rfl : start' = P.start := start
  obtain rfl : stop' = P.stop := stop
  -- A book that the plan has opened for the column earlier would have left a mark here.
  have unopened : ∀ {e}, P.has e c → ¬ L.has e c → k.row i < P.stop e → False := fun there new behind =>
    not_le.2 behind (planned.stop_le_of_not_has inside unmarked there new)
  have kept : ∀ {a d e}, P.mark a d = some e → mark' a d = some e := by
    intro a d e mark
    by_cases here : d = c ∧ (a = i ∨ i < a ∧ a < k.count ∧ k.row a < P.stop b)
    · obtain ⟨rfl, rfl | ⟨lt, inside', -⟩⟩ := here
      · rw [unmarked] at mark; cases mark
      · have lower := k.increasing lt (le_of_lt inside')
        rcases planned.how mark with ⟨new, first | behind⟩ | ⟨le, -⟩
        · obtain ⟨a', le, first', -⟩ := planned.registered (planned.add mark).2.2.2.1 new
          have := k.row_le le (le_of_lt inside)
          omega
        · exact (unopened (planned.add mark).2.2.2.1 new (by omega)).elim
        · omega
    · exact (others here).trans mark
  have new : ∀ {a d e}, mark' a d = some e →
      d = c ∧ e = b ∧ (a = i ∨ i < a ∧ a < k.count ∧ k.row a < P.stop b) ∨ P.mark a d = some e := by
    intro a d e mark
    by_cases here : d = c ∧ (a = i ∨ i < a ∧ a < k.count ∧ k.row a < P.stop b)
    · obtain ⟨rfl, rows⟩ := here
      exact .inl ⟨rfl, Option.some.inj (mark.symm.trans (marked rows)), rows⟩
    · exact .inr ((others here).symm.trans mark)
  refine ⟨fun old => hasIff.2 (.inl (planned.keeps old)), planned.same, ?_, ?_,
    planned.every_of_kept kept (marked (.inl rfl)), ?_, ?_, ?_⟩
  · intro e d there unknown
    rcases hasIff.1 there with there | ⟨rfl, rfl⟩
    · exact planned.fresh there unknown
    · by_cases none : ∀ d, ¬ P.has e d
      · exact empty none
      · obtain ⟨d', there'⟩ := not_forall_not.1 none
        exact planned.fresh there' unknown
  · intro a d e mark
    rcases new mark with ⟨rfl, rfl, rows⟩ | old
    · have bounds : i ≤ a ∧ a < k.count := by omega
      have le := k.row_le bounds.1 (le_of_lt bounds.2)
      exact ⟨writes, bounds.2, tidy.missing_of_le missing le, hasIff.2 (.inr ⟨rfl, rfl⟩), starts.trans_le le⟩
    · obtain ⟨writes', inside', missing', there, le⟩ := planned.add old
      exact ⟨writes', inside', missing', hasIff.2 (.inl there), le⟩
  · intro e d there new
    rcases hasIff.1 there with there | ⟨rfl, rfl⟩
    · obtain ⟨a, le, first, mark, rest⟩ := planned.registered there new
      exact ⟨a, le, first, kept mark, fun lt inside' rows => kept (rest lt inside' rows)⟩
    · exact ⟨i, le_rfl, starts, marked (.inl rfl), fun lt inside' rows => marked (.inr ⟨lt, inside', rows⟩)⟩
  · intro a d e mark
    rcases new mark with ⟨rfl, rfl, rows⟩ | old
    · refine .inl ⟨fun old => absent (planned.keeps old), ?_⟩
      rcases rows with rfl | ⟨-, -, behind⟩
      · exact .inl starts
      · exact .inr behind
    · refine (planned.how old).imp id fun ⟨le, grows⟩ => ⟨le, grows.nonempty, grows.before, ?_, ?_⟩
      · intro d' there' a' le' rows
        rcases hasIff.1 there' with there' | ⟨rfl, rfl⟩
        · exact kept (grows.all there' le' rows)
        · exact absurd starts (ne_of_lt (grows.nonempty.trans_le (grows.before.trans (k.row_le le inside.le))))
      · intro e' d' there' writes' missing' early
        rcases hasIff.1 there' with there' | ⟨rfl, rfl⟩
        · exact grows.alone there' writes' missing' early
        · rcases early with old | early
          · exact absurd (planned.keeps old) absent
          · have lower : P.start e' < _ := early
            have := k.row_le le inside.le
            omega
  · -- The column is not claimed by another book in the rows of `b`: they are missing, and not
    -- planned for another book.
    have unclaimed : ∀ {e r}, P.Claims e c r → k.row i ≤ r → False := by
      rintro e r ⟨there, first, last⟩ lower
      by_cases old : L.has e c
      · obtain ⟨start', stop'⟩ := planned.same old
        exact missing (tidy.initial ⟨e, old, by omega, by omega⟩ lower)
      · exact unopened there old (by omega)
    rintro e e' d r ⟨there, first, last⟩ ⟨there', first', last'⟩
    rcases hasIff.1 there with there | ⟨rfl, rfl⟩
    · rcases hasIff.1 there' with there' | ⟨rfl, rfl⟩
      · exact planned.disjoint ⟨there, first, last⟩ ⟨there', first', last'⟩
      · exact (unclaimed ⟨there, first, last⟩ (starts.ge.trans first')).elim
    · rcases hasIff.1 there' with there' | ⟨rfl, -⟩
      · exact (unclaimed ⟨there', first', last'⟩ (starts.ge.trans first)).elim
      · rfl

end

end Planned

end BookPlan
