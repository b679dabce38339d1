import Mathlib.Algebra.Order.Ring.Int
/-!
# Reading a stream front by front

A reader keeps what it was given and not yet read, and takes items off the front of it until more is
needed. Where the front is decided by what was seen (`Steady`: more bytes change neither an item nor a
fault), the cuts of the stream leave no trace: feeding it in chunks is feeding it whole.
-/

namespace Rant.Lib

/-- What stands at the front of a buffer: too little, an item of `n` elements, or a fault. -/
inductive Front (α ε : Type) where
  | more
  | item (a : α) (n : Nat)
  | bad (e : ε)
  deriving DecidableEq, Repr

/-- A reader: how it tells the front of its buffer, and what items and faults do to its state. -/
structure Reader (β α ε σ : Type) where
  front : List β → Front α ε
  live : σ → Bool
  take : σ → α → σ
  fault : σ → ε → σ

namespace Reader

variable {β α ε σ : Type} (R : Reader β α ε σ)

/-- Everything the buffer holds, for `k` items at most. A state that is no longer live keeps nothing. -/
def drain : Nat → σ → List β → σ × List β
  | 0, s, b => (s, b)
  | k + 1, s, b =>
    if R.live s then
      match R.front b with
      | .more => (s, b)
      | .item a n => drain k (R.take s a) (b.drop n)
      | .bad e => (R.fault s e, [])
    else (s, [])

/-- Everything the buffer holds. -/
def drained (s : σ) (b : List β) : σ × List β := R.drain (b.length + 1) s b

/-- One chunk more. -/
def feed (x : σ × List β) (chunk : List β) : σ × List β := R.drained x.1 (x.2 ++ chunk)

/-- The front is decided by what was seen, and a fault ends the reading. -/
structure Steady : Prop where
  item : ∀ {b a n}, R.front b = .item a n → 0 < n ∧ n ≤ b.length ∧ ∀ c, R.front (b ++ c) = .item a n
  bad : ∀ {b e}, R.front b = .bad e → ∀ c, R.front (b ++ c) = .bad e
  ends : ∀ s e, R.live (R.fault s e) = false

/-- The items of a stream and the fault it runs into. -/
def itemsFrom (front : List β → Front α ε) : Nat → List β → List α × Option ε
  | 0, _ => ([], none)
  | k + 1, b =>
    match front b with
    | .more => ([], none)
    | .item a n => (a :: (itemsFrom front k (b.drop n)).1, (itemsFrom front k (b.drop n)).2)
    | .bad e => ([], some e)

def items (front : List β → Front α ε) (b : List β) : List α × Option ε := itemsFrom front (b.length + 1) b

/-- The items taken one after the other, as long as the state is live. -/
def consume (s : σ) : List α → Option ε → σ
  | [], none => s
  | [], some e => if R.live s then R.fault s e else s
  | a :: as, e => if R.live s then consume (R.take s a) as e else s

variable {R}

theorem drained_dead {s : σ} (h : R.live s = false) (b : List β) : R.drained s b = (s, []) := by
  unfold drained drain
  rw [h]
  rfl

theorem consume_dead {s : σ} (h : R.live s = false) (as : List α) (e : Option ε) : R.consume s as e = s := by
  cases as with
  | nil =>
    cases e with
    | none => rfl
    | some e =>
      unfold consume
      rw [h]
      rfl
  | cons a as =>
    unfold consume
    rw [h]
    rfl

theorem consume_append (as bs : List α) (e : Option ε) : ∀ s : σ,
    R.consume s (as ++ bs) e = R.consume (R.consume s as none) bs e := by
  induction as with
  | nil => exact fun _ => rfl
  | cons a as ih =>
    intro s
    cases hlive : R.live s with
    | false => rw [consume_dead hlive, consume_dead hlive, consume_dead hlive]
    | true =>
      have hstep : ∀ xs e, R.consume s (a :: xs) e = R.consume (R.take s a) xs e := by
        intro xs e
        conv_lhs => unfold consume
        rw [hlive]
        rfl
      rw [List.cons_append, hstep, hstep, ih]

section
variable (hR : R.Steady)
include hR

theorem Steady.drop_lt {b : List β} {a : α} {n : Nat} (h : R.front b = .item a n) : (b.drop n).length < b.length := by
  obtain ⟨hpos, hle, -⟩ := hR.item h
  rw [List.length_drop]
  omega

/-- Enough turns are enough. -/
theorem Steady.drain_enough {k : Nat} : ∀ {s : σ} {b : List β}, b.length < k → R.drain k s b = R.drained s b := by
  have hany : ∀ k m s (b : List β), b.length < k → b.length < m → R.drain k s b = R.drain m s b := by
    intro k
    induction k with
    | zero => exact fun _ _ b h => absurd h (Nat.not_lt_zero _)
    | succ k ih =>
      intro m s b hk hm
      cases m with
      | zero => exact absurd hm (Nat.not_lt_zero _)
      | succ m =>
        unfold drain
        cases hfront : R.front b with
        | more => rfl
        | bad e => rfl
        | item a n =>
          have hlt := hR.drop_lt hfront
          dsimp only
          rw [ih m (R.take s a) (b.drop n) (by omega) (by omega)]
  intro s b h
  exact hany k _ s b h (Nat.lt_succ_self _)

theorem Steady.drained_item {s : σ} {b : List β} {a : α} {n : Nat} (hlive : R.live s = true)
    (h : R.front b = .item a n) : R.drained s b = R.drained (R.take s a) (b.drop n) := by
  rw [← hR.drain_enough (hR.drop_lt h)]
  show R.drain (b.length + 1) s b = _
  conv_lhs => unfold drain
  rw [hlive, h]
  rfl

omit hR in
theorem drained_more {s : σ} {b : List β} (hlive : R.live s = true) (h : R.front b = .more) :
    R.drained s b = (s, b) := by
  unfold drained drain
  rw [hlive, h]
  rfl

omit hR in
theorem drained_bad {s : σ} {b : List β} {e : ε} (hlive : R.live s = true) (h : R.front b = .bad e) :
    R.drained s b = (R.fault s e, []) := by
  unfold drained drain
  rw [hlive, h]
  rfl

/-- A state that is no longer live holds nothing. -/
theorem Steady.drained_empty : ∀ (n : Nat) (s : σ) (b : List β), b.length = n →
    R.live (R.drained s b).1 = false → (R.drained s b).2 = [] := by
  intro n
  induction n using Nat.strongRecOn with
  | _ n ih =>
    intro s b hn
    cases hlive : R.live s with
    | false =>
      rw [drained_dead hlive]
      exact fun _ => rfl
    | true =>
      cases hfront : R.front b with
      | more =>
        rw [drained_more hlive hfront]
        exact fun h => absurd (hlive.symm.trans h) (fun h => Bool.false_ne_true h.symm)
      | bad e =>
        rw [drained_bad hlive hfront]
        exact fun _ => rfl
      | item a k =>
        rw [hR.drained_item hlive hfront]
        exact ih (b.drop k).length (hn ▸ hR.drop_lt hfront) _ _ rfl

/-- The buffer given later is the buffer given at once. -/
theorem Steady.drained_append (c : List β) : ∀ (n : Nat) (s : σ) (b : List β), b.length = n →
    R.drained s (b ++ c) = R.feed (R.drained s b) c := by
  intro n
  induction n using Nat.strongRecOn with
  | _ n ih =>
    intro s b hn
    unfold feed
    cases hlive : R.live s with
    | false => rw [drained_dead hlive, drained_dead hlive, drained_dead hlive]
    | true =>
      cases hfront : R.front b with
      | more => rw [drained_more hlive hfront]
      | bad e =>
        rw [drained_bad hlive hfront, drained_bad hlive (hR.bad hfront c), drained_dead (hR.ends s e)]
      | item a k =>
        obtain ⟨hpos, hle, hsame⟩ := hR.item hfront
        rw [hR.drained_item hlive hfront, hR.drained_item hlive (hsame c), List.drop_append_of_le_length hle]
        exact ih (b.drop k).length (hn ▸ hR.drop_lt hfront) _ _ rfl

theorem Steady.itemsFrom_enough {k : Nat} : ∀ {b : List β}, b.length < k →
    itemsFrom R.front k b = items R.front b := by
  have hany : ∀ k m (b : List β), b.length < k → b.length < m → itemsFrom R.front k b = itemsFrom R.front m b := by
    intro k
    induction k with
    | zero => exact fun _ b h => absurd h (Nat.not_lt_zero _)
    | succ k ih =>
      intro m b hk hm
      cases m with
      | zero => exact absurd hm (Nat.not_lt_zero _)
      | succ m =>
        unfold itemsFrom
        cases hfront : R.front b with
        | more => rfl
        | bad e => rfl
        | item a n =>
          have hlt := hR.drop_lt hfront
          dsimp only
          rw [ih m (b.drop n) (by omega) (by omega)]
  intro b h
  exact hany k _ b h (Nat.lt_succ_self _)

theorem Steady.items_item {b : List β} {a : α} {n : Nat} (h : R.front b = .item a n) :
    items R.front b = (a :: (items R.front (b.drop n)).1, (items R.front (b.drop n)).2) := by
  rw [← hR.itemsFrom_enough (hR.drop_lt h)]
  show itemsFrom R.front (b.length + 1) b = _
  conv_lhs => unfold itemsFrom
  rw [h]

omit hR in
theorem items_more {b : List β} (h : R.front b = .more) : items R.front b = ([], none) := by
  unfold items itemsFrom
  rw [h]

omit hR in
theorem items_bad {b : List β} {e : ε} (h : R.front b = .bad e) : items R.front b = ([], some e) := by
  unfold items itemsFrom
  rw [h]

/-- What a buffer does to the state is what its items do. -/
theorem Steady.drained_state : ∀ (n : Nat) (s : σ) (b : List β), b.length = n →
    (R.drained s b).1 = R.consume s (items R.front b).1 (items R.front b).2 := by
  intro n
  induction n using Nat.strongRecOn with
  | _ n ih =>
    intro s b hn
    cases hlive : R.live s with
    | false => rw [drained_dead hlive, consume_dead hlive]
    | true =>
      cases hfront : R.front b with
      | more =>
        rw [drained_more hlive hfront, items_more hfront]
        rfl
      | bad e =>
        rw [drained_bad hlive hfront, items_bad hfront]
        unfold consume
        rw [hlive]
        rfl
      | item a k =>
        rw [hR.drained_item hlive hfront, hR.items_item hfront, ih (b.drop k).length (hn ▸ hR.drop_lt hfront) _ _ rfl]
        conv_rhs => unfold consume
        rw [hlive]
        rfl

/-- A stream of encodings holds what was encoded. -/
theorem Steady.items_encoded {encode : α → List β} {as : List α} {rest : List β}
    (hread : ∀ a ∈ as, ∀ c, R.front (encode a ++ c) = .item a (encode a).length) :
    items R.front (as.flatMap encode ++ rest) = (as ++ (items R.front rest).1, (items R.front rest).2) := by
  induction as with
  | nil => rfl
  | cons a as ih =>
    rw [List.flatMap_cons, List.append_assoc, hR.items_item (hread a List.mem_cons_self _), List.drop_left,
      ih fun x hx => hread x (List.mem_cons_of_mem _ hx)]
    rfl

end

end Reader

end Rant.Lib
