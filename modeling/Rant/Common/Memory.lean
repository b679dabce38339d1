import Rant.Lib.Intrusive
/-!
# The memory model

`src/common/alloc.h`: every page and block has a header in front of it. Shared pages are bumped
and never freed singly, freeable blocks are pages of their own or in static mode bumped from the
one buffer, and a freed block goes to the pool. Headers are a map of addresses, apart from the
bytes of the blocks, and `size_t` has 64 bits.

The backing heap is the caller's. What it answers is part of each call, and an answer that is no
room of its own, in use or past the end of memory, stands for a NULL.
-/

namespace Rant.Memory

open Rant.Lib

/-! ## Sizes -/

/-- `size_t` arithmetic. -/
def wrap (n : Nat) : Nat := n % 2 ^ 64

def wsub (n k : Nat) : Nat := (n + 2 ^ 64 - k) % 2 ^ 64

/-- `sizeof(i_RantPage)`. -/
def pageHdr : Nat := 32

/-- `i_rant_allocator_align`. -/
def align (n : Nat) : Nat := wrap (n + 15) / 16 * 16

/-- The power of two at most `n`, doubled from `p`. -/
def topPower (n : Nat) : Nat → Nat → Nat
  | 0, p => p
  | k + 1, p => if 2 * p ≤ n then topPower n k (2 * p) else p

/-- `i_rant_allocator_class`: a quarter power of two class, exact above 4 kB. -/
def sizeClass (n : Nat) : Nat :=
  if n ≤ 16 then 16
  else if n ≥ 4096 then align n
  else
    let p := topPower n 12 16
    let q := p / 4
    p + (n - p + q - 1) / q * q

/-! ## The state -/

/-- `i_RantPage`. -/
structure Page where
  next : Option Nat := none
  prev : Option Nat := none
  cap : Nat := 0
  used : Nat := 0

/-- Some bytes in a row. -/
structure Extent where
  off : Nat
  len : Nat
  deriving DecidableEq, Repr

/-- They share no byte. -/
abbrev Extent.Apart (x y : Extent) : Prop := x.off + x.len ≤ y.off ∨ y.off + y.len ≤ x.off

/-- `RantAllocator`, with the headers and the bytes of the memory it manages. The ghosts: `held`
is what the backing gave and did not take back, and `made` counts the headers written. -/
structure RantAllocator where
  dynamic : Bool
  shared : Option Nat := none
  owned : Option Nat := none
  freePool : Option Nat := none
  pageSize : Nat := 0
  maxBytes : Nat := 0
  inUse : Nat := 0
  pooled : Nat := 0
  peak : Nat := 0
  allocCalls : Nat := 0
  pagesLive : Nat := 0
  page : Nat → Page := fun _ => {}
  mem : Nat → UInt8 := fun _ => 0
  held : List Extent := []
  made : Nat := 0

/-- The header at `h`, changed. -/
def upd (page : Nat → Page) (h : Nat) (f : Page → Page) : Nat → Page :=
  fun i => if i = h then f (page i) else page i

/-- A page put first on a list. -/
def linkFront (page : Nat → Page) (head : Option Nat) (h : Nat) : Nat → Page :=
  let page := upd page h fun p => { p with prev := none, next := head }
  match head with
  | some g => upd page g fun p => { p with prev := some h }
  | none => page

/-- A page taken off its list. -/
def unlinkPage (page : Nat → Page) (h : Nat) : Nat → Page :=
  let p := page h
  let page := match p.prev with
    | some g => upd page g fun q => { q with next := p.next }
    | none => page
  match p.next with
  | some g => upd page g fun q => { q with prev := p.prev }
  | none => page

/-- The pages of a list from a link on. -/
def walk (page : Nat → Page) : Nat → Option Nat → List Nat
  | 0, _ => []
  | _, none => []
  | n + 1, some h => h :: walk page n (page h).next

namespace RantAllocator

variable (a : RantAllocator)

/-- `rant_allocator_static` over the buffer at `b`. -/
def static (b size : Nat) : RantAllocator :=
  let aligned := (b + 15) / 16 * 16
  let head := aligned - b
  if b ≠ 0 ∧ head + pageHdr ≤ size then
    { dynamic := false, shared := some aligned, pagesLive := 1, made := 1
      page := upd (fun _ => {}) aligned fun p => { p with cap := size - head - pageHdr } }
  else { dynamic := false }

/-- `RANT_ALLOCATOR_PAGE`. -/
def defaultPage : Nat := 64 * 1024

/-- `rant_allocator_dynamic`, with the guard its caller sets. -/
def init (pageSize maxBytes : Nat) : RantAllocator :=
  { dynamic := true, pageSize := if pageSize ≠ 0 then pageSize else defaultPage, maxBytes := maxBytes }

/-- `i_rant_allocator_over`. -/
def «over» (need : Nat) : Bool := a.maxBytes ≠ 0 && a.maxBytes < wrap (a.inUse + a.pooled + need)

/-- `page_realloc(NULL, psz)`: the address answered, where there is room of its own. -/
def backing (psz : Nat) (answer : Option Nat) : Option Nat :=
  answer.filter fun x => x ≠ 0 && x + psz ≤ 2 ^ 64 && a.held.all fun e => Extent.Apart ⟨x, psz⟩ e

/-! ## Shared pages -/

/-- The page the backing gives: a fragmented heap may hold the bytes only in shreds, so the ask
is halved until one fits. A `size_t` is halved 64 times at most. -/
def takePage (floor : Nat) (back : Nat → Option Nat) : Nat → Nat → Nat → Option (Nat × Nat)
  | 0, _, _ => none
  | n + 1, k, psz =>
    match a.backing psz (back k) with
    | some x => some (x, psz)
    | none =>
      if psz > floor then
        takePage floor back n (k + 1) (if psz / 2 < floor then floor else psz / 2)
      else none

/-- The current page, where it has room. -/
def current (need : Nat) : Option Nat :=
  a.shared.filter fun pg => wrap (align (a.page pg).used + need) ≤ (a.page pg).cap

/-- The bump of page `pg`. -/
def bumpIn (pg need : Nat) : RantAllocator × Nat :=
  let used := align (a.page pg).used
  ({ a with page := upd a.page pg fun p => { p with used := wrap (used + need) } },
    pg + pageHdr + used)

/-- A shared page put first. -/
def addShared (np psz : Nat) : RantAllocator :=
  { a with
    page := upd (linkFront a.page a.shared np) np fun p => { p with cap := wsub psz pageHdr, used := 0 }
    shared := some np, pagesLive := a.pagesLive + 1, held := ⟨np, psz⟩ :: a.held, made := a.made + 1 }

/-- `i_rant_allocator_bump`. -/
def bump (need : Nat) (back : Nat → Option Nat) : RantAllocator × Option Nat :=
  let need := align need
  match a.current need with
  | some pg =>
    let r := a.bumpIn pg need
    (r.1, some r.2)
  | none =>
    if !a.dynamic || a.over need then (a, none)
    else
      let floor := wrap (need + pageHdr)
      match a.takePage floor back 65 0 (if floor > a.pageSize then floor else a.pageSize) with
      | none => (a, none)
      | some (np, psz) =>
        let r := (a.addShared np psz).bumpIn np need
        (r.1, some r.2)

/-- Bytes counted as in use. -/
def count (n : Nat) : RantAllocator :=
  { a with
    allocCalls := a.allocCalls + 1, inUse := wrap (a.inUse + n)
    peak := max a.peak (wrap (a.inUse + n)) }

/-- `rant_allocator_fixed`. -/
def fixed (size : Nat) (back : Nat → Option Nat) : RantAllocator × Option Nat :=
  if size = 0 then (a, none)
  else
    match a.bump size back with
    | (a, none) => (a, none)
    | (a, some p) => (a.count (align size), some p)

/-! ## Freeable blocks -/

/-- The smallest pooled block that fits, the first of them, from `it` on. -/
def bestFrom (cap : Nat) : Nat → Option Nat → Option Nat → Option Nat
  | 0, _, best => best
  | _, none, best => best
  | n + 1, some it, best =>
    bestFrom cap n (a.page it).next
      (if cap ≤ (a.page it).cap && best.all fun b => (a.page it).cap < (a.page b).cap then some it
       else best)

/-- The pooled block that is reused: within twice the ask. -/
def pick (cap : Nat) : Option Nat :=
  (a.bestFrom cap a.made a.freePool none).filter fun b => (a.page b).cap - cap ≤ cap

/-- A pooled block out again. -/
def reuse (best : Nat) : RantAllocator :=
  let p := a.page best
  let a := { a with
    freePool := if p.prev = none then p.next else a.freePool
    page := unlinkPage a.page best, pooled := wsub a.pooled p.cap }
  let a :=
    if a.dynamic then { a with page := linkFront a.page a.owned best, owned := some best }
    else { a with page := upd a.page best fun q => { q with prev := none, next := none } }
  { a with page := upd a.page best fun q => { q with used := p.cap } }.count p.cap

/-- A block page put first. -/
def addOwned (pg cap psz : Nat) : RantAllocator :=
  { a with
    page := upd (linkFront a.page a.owned pg) pg fun q => { q with cap := cap, used := cap }
    owned := some pg, pagesLive := a.pagesLive + 1, held := ⟨pg, psz⟩ :: a.held
    made := a.made + 1 }.count cap

/-- A block bumped from the buffer. It is not linked, reset rewinds the buffer. -/
def addBumped (pg cap : Nat) : RantAllocator :=
  { a with
    page := upd a.page pg fun _ => { cap := cap, used := cap }, made := a.made + 1 }.count cap

/-- `i_rant_allocator_new_owned`. -/
def newOwned (cap : Nat) (back : Nat → Option Nat) : RantAllocator × Option Nat :=
  match a.pick cap with
  | some best => (a.reuse best, some (best + pageHdr))
  | none =>
    if a.dynamic then
      if a.over cap then (a, none)
      else
        match a.backing (wrap (pageHdr + cap)) (back 0) with
        | none => (a, none)
        | some pg => (a.addOwned pg cap (wrap (pageHdr + cap)), some (pg + pageHdr))
    else
      match a.bump (wrap (pageHdr + cap)) back with
      | (a, none) => (a, none)
      | (a, some pg) => (a.addBumped pg cap, some (pg + pageHdr))

/-- `i_rant_allocator_free_owned` of the block whose header is at `pg`. -/
def freeOwned (pg : Nat) : RantAllocator :=
  let p := a.page pg
  let a := { a with inUse := wsub a.inUse p.cap }
  let a :=
    if a.dynamic then
      { a with owned := if p.prev = none then p.next else a.owned, page := unlinkPage a.page pg }
    else a
  { a with
    page := linkFront a.page a.freePool pg, freePool := some pg, pooled := wrap (a.pooled + p.cap) }

/-- The bytes an ask for `size` reserves. -/
def capOf (size : Nat) : Nat := if a.dynamic then sizeClass size else align size

/-- `memcpy`. -/
def copy (dst src len : Nat) : RantAllocator :=
  { a with mem := fun i => if dst ≤ i ∧ i < dst + len then a.mem (src + (i - dst)) else a.mem i }

/-- `rant_allocator_alloc`: a new block, a freed one for size 0, else a grown one. -/
def alloc (ptr : Option Nat) (size : Nat) (back : Nat → Option Nat) : RantAllocator × Option Nat :=
  if size = 0 then
    match ptr with
    | some p => (a.freeOwned (p - pageHdr), none)
    | none => (a, none)
  else
    match ptr with
    | none => a.newOwned (a.capOf size) back
    | some p =>
      if a.capOf size ≤ (a.page (p - pageHdr)).cap then (a, some p)
      else
        match a.newOwned (a.capOf size) back with
        | (a, none) => (a, none)                   -- the old block stays intact
        | (a', some np) =>
          ((a'.copy np p (a'.page (p - pageHdr)).cap).freeOwned (p - pageHdr), some np)

/-- `rant_allocator_reset`. -/
def reset : RantAllocator :=
  let a :=
    if a.dynamic then
      let freed := walk a.page a.made a.owned ++ walk a.page a.made a.freePool ++
        walk a.page a.made a.shared
      { a with
        held := a.held.filter fun e => !freed.contains e.off
        owned := none, freePool := none, shared := none, pagesLive := 0 }
    else
      match a.shared with
      | some pg =>
        { a with
          page := upd a.page pg fun p => { p with used := 0 }, pagesLive := 1, freePool := none }
      | none => a
  { a with inUse := 0, pooled := 0 }

end RantAllocator

/-! ## Callers -/

/-- A block that is out: what was asked for it and where it is. -/
structure Block where
  ptr : Nat
  asked : Nat
  deriving DecidableEq, Repr

/-- The header of a freeable block. -/
def Block.hdr (b : Block) : Nat := b.ptr - pageHdr

/-- The allocator and, ghost, the blocks that are out, the newest first. -/
structure World where
  a : RantAllocator
  live : List Block
  fixeds : List Block

/-- What callers do. A freed or resized block is one that is out, and a store is into one. -/
inductive MemEvent
  | alloc (size : Nat) (back : Nat → Option Nat)
  | resize (ptr size : Nat) (back : Nat → Option Nat)
  | free (ptr : Nat)
  | fixed (size : Nat) (back : Nat → Option Nat)
  | store (ptr i : Nat) (b : UInt8)
  | reset

namespace World

/-- The block that is out at `ptr`. -/
def find (w : World) (ptr : Nat) : Option Block := w.live.find? fun b => b.ptr == ptr

def step (w : World) : MemEvent → World
  | .alloc size back =>
    match w.a.alloc none size back with
    | (a, some p) => { w with a := a, live := ⟨p, size⟩ :: w.live }
    | (a, none) => { w with a := a }
  | .resize ptr size back =>
    match w.find ptr with
    | none => w
    | some b =>
      if size = 0 then w
      else
        match w.a.alloc (some ptr) size back with
        | (a, some p) =>
          if p = ptr then
            { w with a := a, live := w.live.map fun c => if c = b then ⟨ptr, size⟩ else c }
          else { w with a := a, live := (⟨p, size⟩ :: w.live).erase b }
        | (a, none) => { w with a := a }
  | .free ptr =>
    match w.find ptr with
    | none => w
    | some b => { w with a := (w.a.alloc (some ptr) 0 fun _ => none).1, live := w.live.erase b }
  | .fixed size back =>
    match w.a.fixed size back with
    | (a, some p) => { w with a := a, fixeds := ⟨p, size⟩ :: w.fixeds }
    | (a, none) => { w with a := a }
  | .store ptr i b =>
    if (w.live ++ w.fixeds).any fun c => c.ptr == ptr && decide (i < c.asked) then
      { w with a := { w.a with mem := fun j => if j = ptr + i then b else w.a.mem j } }
    else w
  | .reset => { w with a := w.a.reset, live := [], fixeds := [] }

end World

end Rant.Memory
