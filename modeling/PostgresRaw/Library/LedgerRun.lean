import PostgresRaw.Library.Ledger

/-!
# Executing a plan

A plan is executed node by node.  At the end of a node all books written in it are set to end
there; if execution stops at a row `q` inside a node, the books written in it are set to end at
`q`.  `Executed` says which ends the books then have, and `Ready.tidy_after` that the ledger is tidy
again, provided that the plan opened no book at or behind `q`.

The argument rests on `Ready.claims_cases`: a claim of the new ledger is a claim of the old
one, or its row has been executed with the column marked for the book.
-/

universe u v

namespace BookPlan

variable {β : Type u} {γ : Type v} {L : Ledger β γ} {k : Cuts} {w : γ → Prop} {P : BookPlan β γ}

/-- The book is written in the node. -/
def Writes (P : BookPlan β γ) (a : Nat) (b : β) : Prop := ∃ c, P.mark a c = some b

/-- The ends of the books after the plan has been executed up to the row `q`.  Books without
columns do not matter. -/
structure Executed (k : Cuts) (P : BookPlan β γ) (q : Nat) (stop : β → Nat) : Prop where
  untouched : ∀ {b c}, P.has b c → (∀ {a}, a < k.count → k.row a < q → ¬ P.Writes a b) →
    stop b = P.stop b
  touched : ∀ {a b}, a < k.count → k.row a < q → P.Writes a b →
    (∀ {a'}, a < a' → a' < k.count → k.row a' < q → ¬ P.Writes a' b) →
      stop b = min q (k.row (a + 1))

/-- No book is opened where execution does not get to. -/
def StopsWell (k : Cuts) (P : BookPlan β γ) (q : Nat) : Prop :=
  ∀ {a b}, a < k.count → P.Writes a b → q ≤ k.row a → P.start b ≠ k.row a

/-- The ledger after execution. -/
def after (P : BookPlan β γ) (stop : β → Nat) : Ledger β γ := { P.toLedger with stop := stop }

theorem executed_zero : Executed k P (k.row 0) P.stop where
  untouched _ _ := rfl
  touched inside before := by
    have := k.row_le (Nat.zero_le _) (le_of_lt inside)
    omega

/-- Executing a node, or a part of it, and setting the ends of the books written in it. -/
theorem Executed.node {j q : Nat} {stop stop' : β → Nat} (executed : Executed k P (k.row j) stop)
    (inside : j < k.count) (first : k.row j < q) (last : q ≤ k.row (j + 1))
    (registered : ∀ {a b c}, P.mark a c = some b → P.has b c) (written : ∀ {b}, P.Writes j b → stop' b = q)
    (unwritten : ∀ {b c}, P.has b c → ¬ P.Writes j b → stop' b = stop b) : Executed k P q stop' where
  untouched := by
    intro b c has none
    rw [unwritten has (none inside first)]
    exact executed.untouched has fun inside' before => none inside' (by omega)
  touched := by
    intro a b inside' before writes later
    rcases lt_trichotomy a j with lt | rfl | gt
    · have le := k.row_le (show a + 1 ≤ j from lt) (le_of_lt inside)
      obtain ⟨c, mark⟩ := writes
      rw [unwritten (registered mark) (later lt inside first), executed.touched inside'
        (k.increasing lt (le_of_lt inside)) ⟨c, mark⟩ fun lt' inside'' before' =>
          later lt' inside'' (by omega)]
      omega
    · rw [written writes]
      omega
    · have := k.row_le (show j + 1 ≤ a from gt) (le_of_lt inside')
      omega

/-- The last node before `q` in which a book is written. -/
theorem exists_last {q a : Nat} {b : β} (inside : a < k.count) (before : k.row a < q) (writes : P.Writes a b) :
    ∃ a', a ≤ a' ∧ a' < k.count ∧ k.row a' < q ∧ P.Writes a' b ∧
      ∀ {a''}, a' < a'' → a'' < k.count → k.row a'' < q → ¬ P.Writes a'' b := by
  induction n : k.count - a using Nat.strong_induction_on generalizing a with
  | _ n ih =>
    by_cases later : ∃ a', a < a' ∧ a' < k.count ∧ k.row a' < q ∧ P.Writes a' b
    · obtain ⟨a', lt, inside', before', writes'⟩ := later
      obtain ⟨a'', le, rest⟩ := ih (k.count - a') (by omega) inside' before' writes' rfl
      exact ⟨a'', by omega, rest⟩
    · exact ⟨a, le_rfl, inside, before, writes, fun lt inside' before' writes' =>
        later ⟨_, lt, inside', before', writes'⟩⟩

/-- What is known about a plan when it is executed: it is complete and coherent, starts from a
tidy ledger with books that begin and end at cuts, and the columns to be written are claimed
before the first cut. -/
structure Ready (L : Ledger β γ) (k : Cuts) (w : γ → Prop) (P : BookPlan β γ) : Prop where
  tidy : L.Tidy
  aligned : L.Aligned k
  before : ∀ {c r}, w c → r < k.row 0 → L.Covers c r
  planned : Planned L k w P k.count fun _ => False

namespace Ready

variable {q : Nat} {stop : β → Nat}

variable {a r : Nat} {c : γ} {b : β}

section

variable (ready : Ready L k w P)
include ready

theorem mark_of_missing (writes : w c) (inside : a < k.count) (missing : L.Missing k a c) :
    ∃ b, P.mark a c = some b :=
  ready.planned.every writes inside missing (.inl inside)

/-- A book that is registered for a column by the plan begins at a node that writes it. -/
theorem registered (has : P.has b c) (new : ¬ L.has b c) :
    ∃ a, a < k.count ∧ P.start b = k.row a ∧ P.mark a c = some b ∧
      ∀ {a'}, a < a' → a' < k.count → k.row a' < P.stop b → P.mark a' c = some b := by
  obtain ⟨a, -, first, mark, rest⟩ := ready.planned.registered has new
  exact ⟨a, (ready.planned.add mark).2.1, first, mark, rest⟩

/-- A book with a nonempty range has been there before the plan. -/
theorem exists_old (has : P.has b c) (range : P.start b < P.stop b) : ∃ d, L.has b d := by
  by_contra unknown
  have := ready.planned.fresh has (not_exists.1 unknown)
  omega

/-- Ends behind the first cut are cuts. -/
theorem stop_eq (has : P.has b c) (range : P.start b < P.stop b) :
    P.stop b ≤ k.row 0 ∨ ∃ a, a ≤ k.count ∧ P.stop b = k.row a := by
  obtain ⟨d, old⟩ := ready.exists_old has range
  rw [(ready.planned.same old).2]
  exact ready.aligned.stops old

/-- A book that grows in some node does not end before the first cut. -/
theorem row_zero_le_stop (mark : P.mark a c = some b) (grows : Grows L k w P a b) :
    k.row 0 ≤ P.stop b := by
  by_contra early
  have early := not_le.1 early
  obtain ⟨writes, inside, missing, has, -⟩ := ready.planned.add mark
  obtain ⟨e, old, first, last⟩ := ready.before writes early
  obtain ⟨start, stop⟩ := ready.planned.same old
  have before := grows.alone (ready.planned.keeps old) writes missing (.inl old)
  have same := Ledger.eq_of_overlap ready.planned.disjoint (ready.planned.keeps old) has
    (by omega) grows.nonempty before (by have := grows.nonempty; omega)
  subst same
  omega

/-- The rows between the end of a book that grows and the end of the node are in nodes that write
all its columns. -/
theorem grown_rows (mark : P.mark a c = some b) (grows : Grows L k w P a b)
    (behind : P.stop b ≤ r) (before : r < k.row (a + 1)) :
    ∃ a', a' ≤ a ∧ k.InNode a' r ∧ ∀ {d}, P.has b d → P.mark a' d = some b := by
  obtain ⟨-, inside, -, has, -⟩ := ready.planned.add mark
  have zero := ready.row_zero_le_stop mark grows
  obtain ⟨a', less, node⟩ := k.exists_node (r := r) (n := a + 1) (by omega) (by omega)
  refine ⟨a', by omega, node, fun there => grows.all there (by omega) ?_⟩
  rcases ready.stop_eq has grows.nonempty with early | ⟨a₁, inside₁, ends⟩
  · have := k.row_le (Nat.zero_le a') (by omega)
    omega
  · have le : a₁ < a' + 1 := k.lt_of_row_lt inside₁ (by have := node.2; omega)
    have := k.row_le (show a₁ ≤ a' by omega) (by omega)
    omega

section

variable (executed : Executed k P q stop)

include executed

/-- **A claim after execution is an old claim, or has been executed.** -/
theorem claims_cases (stops : StopsWell k P q) (claims : (P.after stop).Claims b c r) :
    L.Claims b c r ∨ ∃ a, a < k.count ∧ k.InNode a r ∧ r < q ∧ P.mark a c = some b := by
  obtain ⟨has, first, last⟩ := claims
  change P.start b ≤ r at first
  change r < stop b at last
  by_cases writes : ∃ a, a < k.count ∧ k.row a < q ∧ P.Writes a b
  · obtain ⟨a₀, inside₀, before₀, writes₀⟩ := writes
    obtain ⟨a, -, inside, before, ⟨d, mark⟩, later⟩ := exists_last inside₀ before₀ writes₀
    rw [executed.touched inside before ⟨d, mark⟩ later] at last
    by_cases old : L.has b c ∧ r < P.stop b
    · obtain ⟨start', stop'⟩ := ready.planned.same old.1
      exact .inl ⟨old.1, by omega, by omega⟩
    · right
      by_cases inRange : r < P.stop b
      · -- The column is new in a book with rows of the node.
        have new : ¬ L.has b c := fun has' => old ⟨has', inRange⟩
        obtain ⟨a₁, inside₁, first₁, mark₁, rest₁⟩ := ready.registered has new
        obtain ⟨a₂, less, node⟩ := k.exists_node (r := r) (n := a + 1)
          (by have := k.row_le (Nat.zero_le a₁) (le_of_lt inside₁); omega) (by omega)
        refine ⟨a₂, by omega, node, by omega, ?_⟩
        rcases lt_trichotomy a₁ a₂ with lt | rfl | gt
        · exact rest₁ lt (by omega) (by have := node.1; omega)
        · exact mark₁
        · have := k.row_le (show a₂ + 1 ≤ a₁ from gt) (le_of_lt inside₁)
          have := node.2
          omega
      · -- The row is behind the old end.
        have inRange := not_lt.1 inRange
        rcases ready.planned.how mark with ⟨new, begins⟩ | ⟨-, grows⟩
        · by_cases range : P.start b < P.stop b
          · -- Then the last node that writes the book would lie before its end.
            exfalso
            have inside' : k.row a < P.stop b := by omega
            have zero := k.row_le (Nat.zero_le a) (le_of_lt inside)
            rcases ready.stop_eq has range with early | ⟨a', inside'', ends⟩
            · omega
            · rw [ends] at inside' inRange
              have := k.row_le (show a + 1 ≤ a' from
                k.lt_of_row_lt (le_of_lt inside) inside') inside''
              omega
          · -- A new book: it is written in its first node only.
            have unknown : ∀ d, ¬ L.has b d := fun d old' => range (by
              obtain ⟨start', stop'⟩ := ready.planned.same old'
              have := ready.tidy.nonempty old'
              omega)
            have first' : P.start b = k.row a := by
              have := (ready.planned.add mark).2.2.2.2
              omega
            obtain ⟨a₁, inside₁, first₁, mark₁, -⟩ := ready.registered has (unknown c)
            have same : a₁ = a := by
              rcases lt_trichotomy a₁ a with lt | eq | gt
              · have := k.increasing lt (le_of_lt inside); omega
              · exact eq
              · have := k.increasing gt (le_of_lt inside₁); omega
            subst same
            exact ⟨a₁, inside, ⟨by omega, by omega⟩, by omega, mark₁⟩
        · obtain ⟨a₂, less, node, all⟩ := ready.grown_rows mark grows inRange (by omega)
          exact ⟨a₂, by omega, node, by omega, all has⟩
  · have none : ∀ {a}, a < k.count → k.row a < q → ¬ P.Writes a b :=
      fun inside before writes' => writes ⟨_, inside, before, writes'⟩
    rw [executed.untouched has none] at last
    by_cases old : L.has b c
    · obtain ⟨start', stop'⟩ := ready.planned.same old
      exact .inl ⟨old, by omega, by omega⟩
    · obtain ⟨a, inside, first', mark, -⟩ := ready.registered has old
      by_cases reached : k.row a < q
      · exact absurd ⟨c, mark⟩ (none inside reached)
      · exact absurd first' (stops inside ⟨c, mark⟩ (not_lt.1 reached))

/-- What has been executed is claimed. -/
theorem claims_of_mark (mark : P.mark a c = some b) (node : k.InNode a r) (before : r < q) : (P.after stop).Claims b c r:= by
  obtain ⟨-, inside, -, has, first⟩ := ready.planned.add mark
  obtain ⟨lower, upper⟩ := node
  obtain ⟨a', le, inside', before', writes', later⟩ :=
    exists_last (P := P) (b := b) inside (by omega : k.row a < q) ⟨c, mark⟩
  refine ⟨has, le_trans first lower, ?_⟩
  change r < stop b
  rw [executed.touched inside' before' writes' later]
  have := k.row_le (show a + 1 ≤ a' + 1 by omega) inside'
  omega

/-- A book can only lose claims of rows that execution has not got to, and then it has been
opened for a column by the plan. -/
theorem lost (claims : L.Claims b c r) (isLost : stop b ≤ r) :
    q ≤ r ∧ ∃ d, P.has b d ∧ ¬ L.has b d := by
  obtain ⟨old, first, last⟩ := claims
  obtain ⟨start', stop'⟩ := ready.planned.same old
  by_cases writes : ∃ a, a < k.count ∧ k.row a < q ∧ P.Writes a b
  · obtain ⟨a₀, inside₀, before₀, writes₀⟩ := writes
    obtain ⟨a, -, inside, before, ⟨d, mark⟩, later⟩ := exists_last inside₀ before₀ writes₀
    rw [executed.touched inside before ⟨d, mark⟩ later] at isLost
    have rising := k.increasing (Nat.lt_add_one a) inside
    have has := (ready.planned.add mark).2.2.2.1
    rcases ready.planned.how mark with ⟨new, -⟩ | ⟨-, grows⟩
    · refine ⟨?_, d, has, new⟩
      by_contra reached
      -- Otherwise the next node, which the book has rows of, is executed as well.
      have inside' : a + 1 < k.count := by
        rcases ready.stop_eq (ready.planned.keeps old) (by omega) with early | ⟨a', le, ends⟩
        · have := k.row_le (Nat.zero_le a) (le_of_lt inside)
          omega
        · have := k.lt_of_row_lt (show a + 1 ≤ k.count from inside) (by omega : k.row (a + 1) < k.row a')
          omega
      obtain ⟨a₁, inside₁, first₁, -, rest₁⟩ := ready.registered has new
      have lower : a₁ ≤ a := by
        by_contra behind
        have := k.increasing (not_le.1 behind) (le_of_lt inside₁)
        have := (ready.planned.add mark).2.2.2.2
        omega
      exact later (Nat.lt_add_one a) inside' (by omega)
        ⟨d, rest₁ (by omega) inside' (by omega)⟩
    · have := grows.before
      omega
  · rw [executed.untouched (ready.planned.keeps old) fun inside before writes' =>
      writes ⟨_, inside, before, writes'⟩] at isLost
    omega

/-- Claims of rows before the one where execution stopped are kept. -/
theorem claims_of_lt (claims : L.Claims b c r) (before : r < q) :
    (P.after stop).Claims b c r := by
  refine ⟨ready.planned.keeps claims.1, ?_, ?_⟩
  · change P.start b ≤ r
    rw [(ready.planned.same claims.1).1]
    exact claims.2.1
  · change r < stop b
    by_contra isLost
    have := (ready.lost executed claims (not_lt.1 isLost)).1
    omega

/-- The columns to be written are claimed up to the row where execution stopped. -/
theorem covers_of_lt (bound : q ≤ k.row k.count) (writes : w c) (before : r < q) : (P.after stop).Covers c r:= by
  by_cases covered : L.Covers c r
  · obtain ⟨b, claims⟩ := covered
    exact ⟨b, ready.claims_of_lt executed claims before⟩
  · have first : k.row 0 ≤ r := by
      by_contra early
      exact covered (ready.before writes (not_le.1 early))
    obtain ⟨a, inside, node⟩ := k.exists_node first (by omega : r < k.row k.count)
    have missing : L.Missing k a c := fun covers => covered (ready.aligned.covers_node inside node covers)
    obtain ⟨b, mark⟩ := ready.mark_of_missing writes inside missing
    exact ⟨b, ready.claims_of_mark executed mark node before⟩

end

/-- If a book lost claims, nothing behind its old end is claimed for its columns: for the column
that it was opened for, a book would have to be opened there. -/
theorem unclaimed_behind (stops : StopsWell k P q) {e : β} {d : γ} (lost : L.Claims b c r)
    (behind : q ≤ r) (has : P.has b d) (new : ¬ L.has b d) (zero : k.row 0 ≤ q) (old : L.has e c)
    (after : L.stop b ≤ L.start e) : False := by
  obtain ⟨oldB, first, last⟩ := lost
  obtain ⟨startB, stopB⟩ := ready.planned.same oldB
  obtain ⟨a₀, inside₀, first₀, mark₀, -⟩ := ready.registered has new
  obtain ⟨writes, -, missing₀, -⟩ := ready.planned.add mark₀
  -- The node where `e` begins: `d` is missing there, and must be marked for some book.
  obtain ⟨a, inside, begins⟩ : ∃ a, a < k.count ∧ L.start e = k.row a := by
    rcases ready.aligned.starts old with early | found
    · omega
    · exact found
  have missing : L.Missing k a d := ready.tidy.missing_of_le missing₀ (by omega)
  obtain ⟨f, mark⟩ := ready.mark_of_missing writes inside missing
  obtain ⟨-, -, -, hasF, beginsF⟩ := ready.planned.add mark
  have unopened := stops inside ⟨d, mark⟩ (by omega)
  have rangeB : P.start b < P.stop b := by omega
  -- A book that begins behind `q` and has `d` is opened by the plan.
  have contradiction : P.stop b ≤ P.start f → False := by
    intro later
    have newF : ¬ L.has f d := by
      intro oldF
      obtain ⟨startF, stopF⟩ := ready.planned.same oldF
      exact missing₀ (ready.tidy.initial
        (r := L.start f) ⟨f, oldF, le_rfl, ready.tidy.nonempty oldF⟩ (by omega))
    obtain ⟨a₁, inside₁, first₁, mark₁, -⟩ := ready.registered hasF newF
    exact stops inside₁ ⟨d, mark₁⟩ (by omega) first₁
  rcases ready.planned.how mark with ⟨-, begins' | rows⟩ | ⟨-, grows⟩
  · exact unopened begins'
  · by_cases later : P.stop b ≤ P.start f
    · exact contradiction later
    · have same := Ledger.eq_of_overlap ready.planned.disjoint hasF has (by omega) rangeB
        (by omega) (by omega)
      rw [same] at rows
      omega
  · by_cases later : P.stop b ≤ P.start f
    · exact contradiction later
    · have before := grows.alone has writes missing (.inr (by omega))
      have same := Ledger.eq_of_overlap ready.planned.disjoint hasF has grows.nonempty rangeB
        (by omega) before
      subst same
      -- Then `f` grows with all its columns, but `c` is not missing.
      have markC := grows.all (ready.planned.keeps oldB) (Nat.le_refl a) (by omega)
      exact (ready.planned.add markC).2.2.1 ⟨e, old, by omega, by
        have := ready.tidy.nonempty old; omega⟩

/-- **The ledger is tidy after execution**, if no book is opened where it does not get to. -/
theorem tidy_after (stops : StopsWell k P q)
    (executed : Executed k P q stop) (zero : k.row 0 ≤ q) (bound : q ≤ k.row k.count) : (P.after stop).Tidy where
  nonempty := by
    intro b c has
    change P.start b < stop b
    by_cases writes : ∃ a, a < k.count ∧ k.row a < q ∧ P.Writes a b
    · obtain ⟨a₀, inside₀, before₀, writes₀⟩ := writes
      obtain ⟨a, -, inside, before, ⟨d, mark⟩, later⟩ := exists_last inside₀ before₀ writes₀
      rw [executed.touched inside before ⟨d, mark⟩ later]
      have := (ready.planned.add mark).2.2.2.2
      have := k.increasing (Nat.lt_add_one a) inside
      omega
    · rw [executed.untouched has fun inside before writes' => writes ⟨_, inside, before, writes'⟩]
      by_cases known : ∃ d, L.has b d
      · obtain ⟨d, old⟩ := known
        obtain ⟨start', stop'⟩ := ready.planned.same old
        have := ready.tidy.nonempty old
        omega
      · obtain ⟨a, inside, first, mark, -⟩ := ready.registered has (not_exists.1 known c)
        by_cases reached : k.row a < q
        · exact absurd ⟨a, inside, reached, c, mark⟩ writes
        · exact absurd first (stops inside ⟨c, mark⟩ (not_lt.1 reached))
  disjoint := by
    intro b b' c r claims claims'
    rcases ready.claims_cases executed stops claims with old | ⟨a, inside, node, -, mark⟩
    · rcases ready.claims_cases executed stops claims' with old' | ⟨a', inside', node', -, mark'⟩
      · exact ready.tidy.disjoint old old'
      · exact absurd (ready.tidy.initial ⟨b, old⟩ node'.1) (ready.planned.add mark').2.2.1
    · rcases ready.claims_cases executed stops claims' with old' | ⟨a', inside', node', -, mark'⟩
      · exact absurd (ready.tidy.initial ⟨b', old'⟩ node.1) (ready.planned.add mark).2.2.1
      · rw [k.node_unique inside inside' node node', mark'] at mark
        exact (Option.some.inj mark).symm
  initial := by
    rintro c r r' ⟨b, claims⟩ le
    by_cases reached : r' < q
    · rcases ready.claims_cases executed stops claims with old | ⟨a, -, -, -, mark⟩
      · obtain ⟨b', old'⟩ := ready.tidy.initial ⟨b, old⟩ le
        exact ⟨b', ready.claims_of_lt executed old' reached⟩
      · exact ready.covers_of_lt executed bound (ready.planned.add mark).1 reached
    · -- Nothing has been executed here, so both rows have been claimed before.
      rcases ready.claims_cases executed stops claims with old | ⟨-, -, -, before, -⟩
      · obtain ⟨b', old'⟩ := ready.tidy.initial ⟨b, old⟩ le
        by_cases kept : r' < stop b'
        · refine ⟨b', ready.planned.keeps old'.1, ?_, kept⟩
          change P.start b' ≤ r'
          rw [(ready.planned.same old'.1).1]
          exact old'.2.1
        · exfalso
          obtain ⟨behind, d, has, new⟩ := ready.lost executed old' (not_lt.1 kept)
          have different : b' ≠ b := by
            rintro rfl
            have := claims.2.2
            change r < stop b' at this
            omega
          refine ready.unclaimed_behind stops old' behind has new zero old.1 ?_
          -- Disjoint ranges, and `b` claims the later row.
          by_contra overlap
          refine different (Ledger.eq_of_overlap ready.tidy.disjoint old'.1 old.1
            (ready.tidy.nonempty old'.1) (ready.tidy.nonempty old.1) ?_ (by omega))
          have := old'.2.1
          have := old.2.2
          omega
      · omega

end

/-- No end moves behind the row where execution stopped. -/
theorem stop_le (executed : Executed k P q stop) (has : P.has b c) : stop b ≤ max (P.stop b) q := by
  by_cases writes : ∃ a, a < k.count ∧ k.row a < q ∧ P.Writes a b
  · obtain ⟨a₀, inside₀, before₀, writes₀⟩ := writes
    obtain ⟨a, -, inside, before, writes, later⟩ := exists_last inside₀ before₀ writes₀
    rw [executed.touched inside before writes later]
    omega
  · rw [executed.untouched has fun inside before writes' => writes ⟨_, inside, before, writes'⟩]
    omega

/-- A book that is written in a node and begins before it has been written up to the node. -/
theorem stop_of_writes (ready : Ready L k w P) {j : Nat} (executed : Executed k P (k.row j) stop)
    (writes : P.Writes j b) (begun : P.start b < k.row j) : stop b = k.row j := by
  obtain ⟨c, mark⟩ := writes
  obtain ⟨-, inside, -, has, -⟩ := ready.planned.add mark
  have le := le_of_lt inside
  -- It is written in the node before, or ends there already.
  have previous : ∀ {i}, j = i + 1 → P.Writes i b → stop b = k.row j := by
    rintro i rfl writes
    rw [executed.touched (by omega) (k.increasing (Nat.lt_add_one i) le) writes
      fun less inside' before => by have := k.lt_of_row_lt (le_of_lt inside') before; omega]
    exact Nat.min_self _
  have zero : ∀ {a}, a < k.count → k.row a < k.row j → ∃ i, j = i + 1 := by
    intro a inside' less
    have := k.lt_of_row_lt (le_of_lt inside') less
    exact ⟨j - 1, by omega⟩
  rcases ready.planned.how mark with ⟨new, begins | rows⟩ | ⟨-, grows⟩
  · omega
  · obtain ⟨a, inside', first, mark', rest⟩ := ready.registered has new
    obtain ⟨i, rfl⟩ := zero inside' (by omega)
    have less := k.lt_of_row_lt (le_of_lt inside') (show k.row a < k.row (i + 1) by omega)
    refine previous rfl ⟨c, ?_⟩
    rcases lt_or_eq_of_le (Nat.le_of_lt_succ less) with less' | rfl
    · exact rest less' (by omega) (by have := k.increasing (Nat.lt_add_one i) le; omega)
    · exact mark'
  · by_cases writes' : ∃ a, a < k.count ∧ k.row a < k.row j ∧ P.Writes a b
    · obtain ⟨a₀, inside₀, before₀, writes₀⟩ := writes'
      obtain ⟨a, -, inside', before, ⟨d, mark'⟩, later⟩ := exists_last inside₀ before₀ writes₀
      obtain ⟨i, rfl⟩ := zero inside' before
      have less := k.lt_of_row_lt (le_of_lt inside') before
      have has' := (ready.planned.add mark').2.2.2.1
      by_cases last : a = i
      · exact previous rfl ⟨d, last ▸ mark'⟩
      · -- Otherwise the node before would be written as well.
        exfalso
        refine later (show a < i by omega) (by omega) (k.increasing (Nat.lt_add_one i) le) ?_
        by_cases behind : P.stop b ≤ k.row i
        · exact ⟨c, grows.all has (Nat.le_succ i) behind⟩
        · rcases ready.planned.how mark' with ⟨new, -⟩ | ⟨-, grows'⟩
          · obtain ⟨a₁, inside₁, first₁, mark₁, rest₁⟩ := ready.registered has' new
            have le₁ : a₁ ≤ a := by
              by_contra greater
              have := k.increasing (not_le.1 greater) (le_of_lt inside₁)
              have := (ready.planned.add mark').2.2.2.2
              omega
            exact ⟨d, rest₁ (by omega) (by omega) (not_le.1 behind)⟩
          · have := grows'.before
            have := k.increasing (show a < i by omega) (by omega)
            omega
    · rw [executed.untouched has fun inside' before writes'' =>
        writes' ⟨_, inside', before, writes''⟩]
      -- An end before the node would be a cut, and the node there written.
      rcases lt_or_eq_of_le grows.before with early | ends
      · exfalso
        have first := ready.row_zero_le_stop mark grows
        obtain ⟨a, inside', ends⟩ : ∃ a, a ≤ k.count ∧ P.stop b = k.row a := by
          rcases ready.stop_eq has grows.nonempty with early' | found
          · exact ⟨0, Nat.zero_le _, by omega⟩
          · exact found
        have less := k.lt_of_row_lt inside' (by omega : k.row a < k.row j)
        exact writes' ⟨a, by omega, by omega, c, grows.all has (le_of_lt less) (by omega)⟩
      · exact ends

end Ready

end BookPlan
