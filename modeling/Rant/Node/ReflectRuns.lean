import Rant.Node.ReflectFold
/-!
# Reflection over whole runs

What a peer sends in any order keeps two things true of its table: the names lie in the arena, and
no present channel has the index that stands for none. The compaction in front of a fold moves
names and nothing else (`compactFrom_moved`). So a fold after any run leaves every channel with the
entity it belongs to.
-/

namespace Rant.Node

open Rant.Lib
open Rant.Serialize (Schema Bytes)
open Rant.Transport (TopicEntry Detail InterestIter interestDrain interestNext interestStart nextFrom
  entryHere topicNameMax frontLe frontLe_lt)

namespace Reflect

variable {r r' r'' : Reflect}

/-! ## The passes on any table -/

/-- A claim writes whom a channel belongs to alone. -/
theorem claim_same (h : Same r r') (sorted : List HashPair) (base suffix : Bytes) (slot kind : Nat)
    (required : Bool) (e : PeerEntity) :
    Same r (r'.claim sorted base slot suffix kind required e).1 := by
  unfold claim
  dsimp only
  split
  · exact h.trans (slot_same r' _ slot)
  · exact h

theorem claimAll_same (h : Same r r') (sorted : List HashPair) (base : Bytes) (slot kind : Nat)
    (e : PeerEntity) : Same r (r'.claimAll sorted base slot kind e).1 := by
  unfold claimAll
  split
  · exact claim_same h ..
  split
  · exact claim_same (claim_same h ..) ..
  split
  · exact claim_same h ..
  · exact h

/-- So does the opening of a primary, -/
theorem openPrimary_same (sorted : List HashPair) (r : Reflect) (i : Nat) :
    Same r (openPrimary sorted r i) := by
  have h := slot_same r i (r.ent.length % 2 ^ 16)
  unfold openPrimary
  dsimp only
  split
  · exact Same.refl r
  split
  · exact push_same h _
  split
  · exact push_same (claimAll_same h ..) _
  split
  · exact push_same (claimAll_same h ..) _
  · exact push_same h _

/-- and of a lone channel. -/
theorem openLone_same (r : Reflect) (i : Nat) : Same r (openLone r i) := by
  have h := slot_same r i (r.ent.length % 2 ^ 16)
  unfold openLone
  dsimp only
  split
  · exact Same.refl r
  split
  · split
    · exact push_same h _
    · exact push_same h _
  · split
    · exact push_same h _
    · exact push_same h _

/-- So does a pass over many. -/
theorem foldl_same {f : Reflect → Nat → Reflect} (hf : ∀ r i, Same r (f r i)) (l : List Nat) (r : Reflect) :
    Same r (l.foldl f r) := by
  induction l generalizing r with
  | nil => exact Same.refl r
  | cons i l ih => exact (hf r i).trans (ih _)

/-! ## Compaction -/

/-- A channel at the new place of its name. -/
structure Moved (names out : Bytes) (ch ch' : RantChannel) : Prop where
  rest : { ch' with nameOff := none } = { ch with nameOff := none }
  nameless : ch.nameOff = none → ch'.nameOff = none
  named : ∀ off, ch.nameOff = some off → ∃ off', ch'.nameOff = some off' ∧
    off' + ch.nameLen < out.length ∧ (out.drop off').take ch.nameLen = (names.drop off).take ch.nameLen

/-- Compaction only appends. -/
theorem compactFrom_grows (names : Bytes) : ∀ (chs : List RantChannel) (keep : Bytes),
    ∃ rest, (compactFrom names chs keep).2 = keep ++ rest
  | [], keep => ⟨[], (List.append_nil keep).symm⟩
  | ch :: chs, keep => by
    unfold compactFrom
    split
    · exact compactFrom_grows names chs keep
    · obtain ⟨rest, h⟩ := compactFrom_grows names chs
        (keep ++ (names.drop _).take (ch.nameLen + 1))
      exact ⟨_, h.trans (List.append_assoc ..)⟩

/-- Every name is moved whole. -/
theorem compactFrom_moved (names : Bytes) : ∀ (chs : List RantChannel) (keep : Bytes),
    (∀ ch ∈ chs, ∀ off, ch.nameOff = some off → off + ch.nameLen < names.length) →
    (compactFrom names chs keep).1.length = chs.length ∧
    ∀ i, Moved names (compactFrom names chs keep).2 (chs.getD i {}) ((compactFrom names chs keep).1.getD i {})
  | [], _, _ => ⟨rfl, fun _ => ⟨rfl, fun _ => rfl, fun _ h => absurd h.symm (Option.some_ne_none _)⟩⟩
  | ch :: chs, keep, hin => by
    have htail := fun ch' h => hin ch' (List.mem_cons_of_mem ch h)
    unfold compactFrom
    split
    · rename_i hoff
      obtain ⟨hlen, hmoved⟩ := compactFrom_moved names chs keep htail
      refine ⟨congrArg (· + 1) hlen, fun i => ?_⟩
      cases i with
      | zero => exact ⟨rfl, fun _ => hoff, fun off h => absurd (hoff.symm.trans h).symm (Option.some_ne_none off)⟩
      | succ i => exact hmoved i
    · rename_i off hoff
      have hfit := hin ch List.mem_cons_self off hoff
      obtain ⟨hlen, hmoved⟩ := compactFrom_moved names chs
        (keep ++ (names.drop off).take (ch.nameLen + 1)) htail
      refine ⟨congrArg (· + 1) hlen, fun i => ?_⟩
      cases i with
      | succ i => exact hmoved i
      | zero =>
        obtain ⟨rest, hrest⟩ := compactFrom_grows names chs (keep ++ (names.drop off).take (ch.nameLen + 1))
        have hpiece : ((names.drop off).take (ch.nameLen + 1)).length = ch.nameLen + 1 := by
          rw [List.length_take, List.length_drop]
          omega
        refine ⟨rfl, fun h => absurd (hoff.symm.trans h) (Option.some_ne_none off), fun off' h => ?_⟩
        obtain rfl := Option.some.inj (hoff.symm.trans h)
        refine ⟨keep.length, rfl, ?_, ?_⟩
        · show keep.length + ch.nameLen < (compactFrom names chs _).2.length
          rw [hrest, List.length_append, List.length_append, hpiece]
          omega
        · show ((compactFrom names chs _).2.drop keep.length).take ch.nameLen = _
          rw [hrest, List.append_assoc, List.drop_left, List.take_append_of_le_length (by omega),
            List.take_take, Nat.min_eq_left (Nat.le_succ _)]
          rfl

/-- The same channels with the same names. -/
structure Alike (r r' : Reflect) : Prop where
  length : r'.chan.length = r.chan.length
  kind : ∀ c, (r'.channel c).kind = (r.channel c).kind
  hash : ∀ c, (r'.channel c).hash = (r.channel c).hash
  present : ∀ c, (r'.channel c).present = (r.channel c).present
  nameOf : ∀ c, r'.nameOf c = r.nameOf c

theorem Same.alike (h : Same r r') : Alike r r' := ⟨h.length, h.kind, h.hash, h.present, h.nameOf⟩

theorem Alike.trans (h : Alike r r') (h' : Alike r' r'') : Alike r r'' :=
  ⟨h'.length.trans h.length, fun c => (h'.kind c).trans (h.kind c), fun c => (h'.hash c).trans (h.hash c),
    fun c => (h'.present c).trans (h.present c), fun c => (h'.nameOf c).trans (h.nameOf c)⟩

/-- A compacted table tells the same of each channel. -/
theorem compact_alike (harena : Arena r) : Alike r r.compact ∧ Arena r.compact := by
  unfold compact
  dsimp only
  split
  · exact ⟨⟨rfl, fun _ => rfl, fun _ => rfl, fun _ => rfl, fun _ => rfl⟩, harena⟩
  have hin : ∀ ch ∈ r.chan, ∀ off, ch.nameOff = some off → off + ch.nameLen < r.names.length := by
    intro ch hch off hoff
    obtain ⟨c, hc, rfl⟩ := List.mem_iff_getElem.mp hch
    have hget : r.channel c = r.chan[c] := by
      unfold channel
      rw [List.getD_eq_getElem?_getD, List.getElem?_eq_getElem hc]
      rfl
    rw [← hget] at hoff ⊢
    exact (harena c off hoff).1
  obtain ⟨hlen, hmoved⟩ := compactFrom_moved r.names r.chan [] hin
  have hrest := fun c => RantChannel.mk.inj (hmoved c).rest
  have hlens : ∀ c, ((compactFrom r.names r.chan []).1.getD c {}).nameLen = (r.channel c).nameLen :=
    fun c => (hrest c).2.2.2.2.2.1
  refine ⟨⟨hlen, fun c => (hrest c).2.2.2.2.2.2.1, fun c => (hrest c).1, fun c => (hrest c).2.2.2.2.2.2.2.2.2.2,
    fun c => ?_⟩, fun c off hoff => ?_⟩
  · show (((compactFrom r.names r.chan []).1.getD c {}).nameOff).map (fun off =>
      ((compactFrom r.names r.chan []).2.drop off).take ((compactFrom r.names r.chan []).1.getD c {}).nameLen) = _
    unfold nameOf
    rw [hlens c]
    cases hoff : (r.channel c).nameOff with
    | none =>
      rw [(hmoved c).nameless hoff]
      rfl
    | some off =>
      obtain ⟨off', hoff', -, hname⟩ := (hmoved c).named off hoff
      rw [hoff']
      exact congrArg some hname
  · show off + ((compactFrom r.names r.chan []).1.getD c {}).nameLen < (compactFrom r.names r.chan []).2.length ∧
      ((compactFrom r.names r.chan []).1.getD c {}).nameLen ≤ topicNameMax
    have hoff : ((compactFrom r.names r.chan []).1.getD c {}).nameOff = some off := hoff
    rw [hlens c]
    cases hold : (r.channel c).nameOff with
    | none => exact absurd (((hmoved c).nameless hold).symm.trans hoff).symm (Option.some_ne_none off)
    | some old =>
      obtain ⟨off', hoff', hfit, -⟩ := (hmoved c).named old hold
      obtain rfl := Option.some.inj (hoff'.symm.trans hoff)
      exact ⟨hfit, (harena c old hold).2⟩

/-! ## The fold -/

/-- The table and its entities after a fold. -/
structure Folded (r r' : Reflect) : Prop where
  alike : Alike r r'
  slots : ∀ c, c < r'.chan.length → (r'.channel c).entity ≠ none16 →
    ∃ e, r'.ent[(r'.channel c).entity]? = some e ∧ c ∈ e.channels
  owned : ∀ c, (r'.channel c).present = true → (r'.channel c).kind ≠ kindCallObs →
    (r'.channel c).entity ≠ none16 ∧
    ∀ s, (∃ e, r'.ent[s]? = some e ∧ c ∈ e.channels) ↔ s = (r'.channel c).entity
  sound : ∀ e ∈ r'.ent, Sound r' e

theorem Alike.distinct (h : Alike r r') (hd : Distinct r) : Distinct r' := by
  intro c d n hc hd' hkind hcn hdn
  rw [h.present] at hc hd'
  rw [h.kind, h.kind] at hkind
  rw [h.nameOf] at hcn hdn
  exact hd c d n hc hd' hkind hcn hdn

theorem Alike.involved (h : Alike r r') {n : Bytes} (hn : Involved r' n) : Involved r n := by
  unfold Involved at hn
  simp only [h.present, h.kind, h.nameOf] at hn
  exact hn

/-- No collision arises from telling the same. -/
theorem Alike.noCollision (h : Alike r r') (hnc : NoCollision r) : NoCollision r' :=
  fun m n hm hn => hnc m n (h.involved hm) (h.involved hn)

theorem Alike.indexed (h : Alike r r') (hix : Indexed r) : Indexed r' :=
  fun c hc => hix c ((h.present c).symm.trans hc)

theorem Same.entityName (h : Same r r') (e : PeerEntity) : r'.entityName e = r.entityName e :=
  h.nameAt _ _

/-- An entity is sound by what the table tells of its channels. -/
theorem Sound.same {e : PeerEntity} (h : Sound r e) (hsame : Same r r') : Sound r' e := by
  constructor
  · exact h.inhabited
  · intro c hc
    rw [hsame.present, hsame.kind]
    exact h.members c hc
  · intro hne
    rw [hsame.kind]
    exact h.primary hne
  · intro q hq hne
    rw [hsame.kind]
    exact h.kinds q hq hne
  · intro hp q hq hne n hn
    rw [hsame.nameOf] at hn
    rw [hsame.entityName]
    exact h.named hp q hq hne n hn
  · intro hp
    obtain ⟨q, hq, hchannels, hname⟩ := h.alone hp
    refine ⟨q, hq, hchannels, fun n hn => ?_⟩
    rw [hsame.nameOf] at hn
    rw [hsame.entityName]
    exact hname n hn
  · exact h.complete

/-- The table as the passes find it. -/
def cleared (r : Reflect) : Reflect :=
  { r with ent := [], chan := r.chan.map fun ch => { ch with entity := none16 } }

theorem cleared_channel (r : Reflect) (c : Nat) :
    r.cleared.channel c = { r.channel c with entity := none16 } := by
  unfold cleared channel
  dsimp only
  rw [List.getD_eq_getElem?_getD, List.getElem?_map, List.getD_eq_getElem?_getD]
  cases r.chan[c]? <;> rfl

/-- Clearing forgets whom the channels belong to alone. -/
theorem cleared_same (r : Reflect) : Same r r.cleared := by
  refine ⟨List.length_map .., rfl, fun c => ?_⟩
  rw [cleared_channel]

/-- The two passes. -/
def passes (r : Reflect) : Reflect :=
  let s := (List.range r.chan.length).foldl (openPrimary r.sortedPairs) r
  (List.range s.chan.length).foldl openLone s

/-- A fold clears the table, then makes both passes. -/
theorem fold_eq (r : Reflect) :
    r.fold false = ({ r with dirty := false } : Reflect).compact.cleared.passes := rfl

theorem passes_same (r : Reflect) : Same r r.passes :=
  (foldl_same (openPrimary_same _) _ r).trans (foldl_same openLone_same _ _)

/-- After the first pass every primary before `k` is open. -/
theorem pass1 {sorted : List HashPair} (hled : Led r sorted) (harena : Arena r) (hix : Indexed r)
    (hd : Distinct r) (hnc : NoCollision r) (h : Pass1 r r 0) (k : Nat) :
    Pass1 r ((List.range k).foldl (openPrimary sorted) r) k := by
  induction k with
  | zero => exact h
  | succ k ih =>
    rw [List.range_succ, List.foldl_append]
    exact ih.step hled harena hix hd hnc

/-- After the second every channel before `k` belongs somewhere. -/
theorem pass2 (harena : Arena r) (hix : Indexed r) (h : Pass2 r r' 0) (k : Nat) :
    Pass2 r ((List.range k).foldl openLone r') k := by
  induction k with
  | zero => exact h
  | succ k ih =>
    rw [List.range_succ, List.foldl_append]
    exact ih.step harena hix

/-- Both passes on a cleared table. -/
theorem passes_folded (harena : Arena r) (hix : Indexed r) (hd : Distinct r) (hnc : NoCollision r)
    (hent : r.ent = []) (hclear : ∀ c, (r.channel c).entity = none16) : Folded r r.passes := by
  have hfirst : Pass1 r r 0 := by
    refine ⟨Same.refl r, ⟨fun s e he => ?_, fun c _ hne => absurd (hclear c) hne⟩, fun e he => ?_,
      fun i hi => absurd hi (Nat.not_lt_zero i)⟩
    · rw [hent] at he
      exact absurd he.symm (Option.some_ne_none e)
    · rw [hent] at he
      exact absurd he List.not_mem_nil
  have h1 := pass1 (sortedPairs_led r) harena hix hd hnc hfirst r.chan.length
  have hsecond : Pass2 r ((List.range r.chan.length).foldl (openPrimary r.sortedPairs) r) 0 := by
    refine ⟨h1.same, h1.slotted, fun e he => ?_, fun i hp => h1.done i (present_lt hp.1) hp,
      fun i hi => absurd hi (Nat.not_lt_zero i)⟩
    obtain ⟨i, base, -, hp, ho⟩ := h1.opened e he
    exact ho.sound hp (hix i hp.1)
  have h2 : Pass2 r r.passes _ := pass2 harena hix hsecond _
  refine ⟨h2.same.alike, h2.slotted.owners, fun c hc hobs => ?_, fun e he => (h2.sound e he).same h2.same⟩
  have hlt := present_lt hc
  rw [h2.same.present] at hc
  rw [h2.same.kind] at hobs
  have hslot := h2.done c (h1.same.length.symm ▸ present_lt hc) hc hobs
  refine ⟨hslot, fun s => ⟨fun ⟨e, he, hmem⟩ => (h2.slotted.slots s e he c hmem).2.symm, fun hs => ?_⟩⟩
  rw [hs]
  exact h2.slotted.owners c hlt hslot

/-- The fold, with the compaction it may make first. -/
theorem fold_folded (harena : Arena r) (hix : Indexed r) (hd : Distinct r) (hnc : NoCollision r) :
    Folded r (r.fold false) := by
  obtain ⟨hcompact, harena'⟩ := @compact_alike { r with dirty := false } harena
  have halike : Alike r ({ r with dirty := false } : Reflect).compact :=
    ⟨hcompact.length, hcompact.kind, hcompact.hash, hcompact.present, hcompact.nameOf⟩
  have hsame := cleared_same ({ r with dirty := false } : Reflect).compact
  have halike' : Alike r _ := halike.trans hsame.alike
  have harena'' : Arena ({ r with dirty := false } : Reflect).compact.cleared := by
    intro c off hoff
    rw [hsame.nameOff] at hoff
    rw [hsame.nameLen, hsame.names]
    exact harena' c off hoff
  rw [fold_eq]
  have h := passes_folded harena'' (halike'.indexed hix) (halike'.distinct hd) (halike'.noCollision hnc) rfl
    fun c => by rw [cleared_channel]
  exact ⟨halike'.trans h.alike, h.slots, h.owned, h.sound⟩

/-! ## What a peer sends -/

theorem channel_reserve (r : Reflect) (i c : Nat) : (r.reserve i).channel c = r.channel c := by
  unfold reserve channel
  rw [List.getD_eq_getElem?_getD, List.getD_eq_getElem?_getD]
  by_cases hc : c < r.chan.length
  · rw [List.getElem?_append_left hc]
  · rw [List.getElem?_append_right (Nat.le_of_not_lt hc), List.getElem?_eq_none (Nat.le_of_not_lt hc),
      List.getElem?_replicate]
    split <;> rfl

theorem lt_reserve (r : Reflect) (i : Nat) : i < (r.reserve i).chan.length := by
  unfold reserve
  rw [List.length_append, List.length_replicate]
  omega

/-- The entries of a list have an index below `none16`. -/
theorem nextFrom_index (d : Bytes) (fuel : Nat) (it : InterestIter) (hit : it.index + it.left ≤ none16) :
    (∀ e, (nextFrom d fuel it).1 = some e → e.index < none16) ∧
    (nextFrom d fuel it).2.index + (nextFrom d fuel it).2.left ≤ none16 := by
  have hnone : ∀ e, (none : Option TopicEntry) = some e → e.index < none16 :=
    fun e h => absurd h.symm (Option.some_ne_none e)
  induction fuel generalizing it with
  | zero => exact ⟨hnone, hit⟩
  | succ fuel ih =>
    have hpast : ∀ n, n ≤ it.left → (it.past n).index + (it.past n).left ≤ none16 := by
      intro n hn
      show (it.index + n) % 2 ^ 16 + (it.left - n) ≤ none16
      unfold none16 at *
      omega
    have hstop : it.stop.index + it.stop.left ≤ none16 := Nat.le_trans (Nat.le_add_right _ _) hit
    unfold nextFrom
    split
    · exact ⟨hnone, hit⟩
    rename_i hleft
    have hone : 1 ≤ it.left := Nat.pos_of_ne_zero hleft
    have hhere : ∀ b e, some (entryHere d it b) = some e → e.index < none16 := by
      intro b e h
      obtain rfl := Option.some.inj h
      show it.index < none16
      omega
    split
    · exact ⟨hnone, hstop⟩
    dsimp only
    split
    · split
      · exact ⟨hnone, hstop⟩
      · rename_i hrun
        exact ih _ (hpast _ (Nat.le_of_not_lt fun h => hrun (Or.inr h)))
    split
    · exact ih _ (hpast 1 hone)
    split
    · refine ⟨hhere true, ?_⟩
      dsimp only
      split
      · exact hit
      · exact hpast 1 hone
    · exact ⟨hhere false, hpast 1 hone⟩

/-- An interest list names no channel past the last. -/
theorem drain_index (d : Bytes) (n : Nat) (it : InterestIter) (hit : it.index + it.left ≤ none16) :
    ∀ e ∈ interestDrain d n it, e.index < none16 := by
  induction n generalizing it with
  | zero => exact fun e he => absurd he List.not_mem_nil
  | succ n ih =>
    have hstart : (interestStart d it).index + (interestStart d it).left ≤ none16 := by
      unfold interestStart
      split
      · exact hit
      · dsimp only
        have hlt := frontLe_lt 2 d
        unfold none16
        split <;> omega
    obtain ⟨hindex, hnext⟩ := nextFrom_index d (interestStart d it).left (interestStart d it) hstart
    unfold interestDrain
    split
    · exact fun e he => absurd he List.not_mem_nil
    · rename_i e it' heq
      have heq : nextFrom d (interestStart d it).left (interestStart d it) = (some e, it') := heq
      rw [heq] at hindex hnext
      intro e' he'
      obtain rfl | he' := List.mem_cons.mp he'
      · exact hindex e' rfl
      · exact ih it' hnext e' he'

/-- What every run keeps. -/
structure Kept (r : Reflect) : Prop where
  arena : Arena r
  indexed : Indexed r

/-- An entry writes its own channel, and keeps or drops its name. -/
theorem applyEntry_channel (r : Reflect) (e : TopicEntry) (c : Nat) :
    (r.applyEntry e).channel c = r.channel c ∨ c = e.index ∧
      (((r.applyEntry e).channel c).nameOff = none ∨
        ((r.applyEntry e).channel c).nameOff = (r.channel c).nameOff ∧
        ((r.applyEntry e).channel c).nameLen = (r.channel c).nameLen) := by
  unfold applyEntry
  rw [channel_set (lt_reserve r e.index), channel_reserve]
  by_cases hc : c = e.index
  · refine Or.inr ⟨hc, ?_⟩
    rw [if_pos hc, hc]
    dsimp only
    split
    · exact Or.inl rfl
    · exact Or.inr ⟨rfl, rfl⟩
  · rw [if_neg hc, channel_reserve]
    exact Or.inl rfl

/-- An entry keeps the names in the arena and the channels in bounds. -/
theorem Kept.applyEntry (h : Kept r) {e : TopicEntry} (he : e.index < none16) : Kept (r.applyEntry e) := by
  refine ⟨fun c off hoff => ?_, fun c hc => ?_⟩
  · show off + _ < r.names.length ∧ _
    obtain heq | ⟨-, hnone | ⟨hsame, hlen⟩⟩ := applyEntry_channel r e c
    · rw [heq] at hoff ⊢
      exact h.arena c off hoff
    · exact absurd (hnone.symm.trans hoff).symm (Option.some_ne_none off)
    · rw [hlen]
      exact h.arena c off (hsame.symm.trans hoff)
  · obtain heq | ⟨rfl, -⟩ := applyEntry_channel r e c
    · rw [heq] at hc
      exact h.indexed c hc
    · exact he

theorem Kept.applyAll (h : Kept r) {l : List TopicEntry} (hl : ∀ e ∈ l, e.index < none16) :
    Kept (l.foldl Reflect.applyEntry r) := by
  induction l generalizing r with
  | nil => exact h
  | cons e l ih =>
    exact ih (h.applyEntry (hl e List.mem_cons_self)) fun e' he' => hl e' (List.mem_cons_of_mem e he')

/-- So does a whole list, -/
theorem Kept.interest (h : Kept r) (list : Bytes) : Kept (r.reflectInterest list) := by
  have hchan : ∀ c, ({ r with chan := r.chan.map fun ch => { ch with present := false } } : Reflect).channel c =
      { r.channel c with present := false } := by
    intro c
    unfold channel
    dsimp only
    rw [List.getD_eq_getElem?_getD, List.getElem?_map, List.getD_eq_getElem?_getD]
    cases r.chan[c]? <;> rfl
  have habsent : Kept { r with chan := r.chan.map fun ch => { ch with present := false } } := by
    refine ⟨fun c off hoff => ?_, fun c hc => ?_⟩
    · rw [hchan c] at hoff ⊢
      exact h.arena c off hoff
    · rw [hchan c] at hc
      exact absurd hc Bool.false_ne_true
  have hall := habsent.applyAll (drain_index list (2 ^ 17) {} (Nat.zero_le _))
  exact ⟨hall.arena, hall.indexed⟩

/-- A name is put where the arena ends. -/
theorem Kept.putName (h : Kept r) {i : Nat} (hi : i < r.chan.length) {name : Bytes}
    (hlen : name.length ≤ topicNameMax) :
    Kept { r.setChannel i (fun ch => { ch with nameOff := some r.names.length, nameLen := name.length }) with
      names := r.names ++ name ++ [0] } := by
  have hchan := channel_set hi
    (fun ch => { ch with nameOff := some r.names.length, nameLen := name.length })
  have hnames : (r.names ++ name ++ [0]).length = r.names.length + name.length + 1 := by
    rw [List.length_append, List.length_append]
    rfl
  refine ⟨fun c off hoff => ?_, fun c hc => ?_⟩
  · have hoff : ((r.setChannel i _).channel c).nameOff = some off := hoff
    show off + ((r.setChannel i _).channel c).nameLen < (r.names ++ name ++ [0]).length ∧
      ((r.setChannel i _).channel c).nameLen ≤ topicNameMax
    rw [hchan c] at hoff ⊢
    rw [hnames]
    by_cases hc : c = i
    · rw [if_pos hc] at hoff ⊢
      obtain rfl := Option.some.inj hoff
      exact ⟨Nat.lt_succ_self _, hlen⟩
    · rw [if_neg hc] at hoff ⊢
      obtain ⟨hfit, hshort⟩ := h.arena c off hoff
      exact ⟨by omega, hshort⟩
  · have hc : ((r.setChannel i _).channel c).present = true := hc
    rw [hchan c] at hc
    by_cases hci : c = i
    · rw [if_pos hci] at hc
      exact h.indexed c (hci ▸ hc)
    · rw [if_neg hci] at hc
      exact h.indexed c hc

/-- What else a detail says. -/
theorem Kept.putDetail (h : Kept r) {i : Nat} (hi : i < r.chan.length) (attrs schemaHash : Nat)
    (schema : Option Schema) :
    Kept { r.setChannel i (fun ch => { ch with attrs := attrs, schemaHash := schemaHash, schema := schema }) with
      dirty := true } := by
  have hchan := channel_set hi
    (fun ch => { ch with attrs := attrs, schemaHash := schemaHash, schema := schema })
  refine ⟨fun c off hoff => ?_, fun c hc => ?_⟩
  · have hoff : ((r.setChannel i _).channel c).nameOff = some off := hoff
    show off + ((r.setChannel i _).channel c).nameLen < r.names.length ∧
      ((r.setChannel i _).channel c).nameLen ≤ topicNameMax
    rw [hchan c] at hoff ⊢
    by_cases hc : c = i
    · rw [if_pos hc] at hoff ⊢
      exact hc ▸ h.arena c off (hc ▸ hoff)
    · rw [if_neg hc] at hoff ⊢
      exact h.arena c off hoff
  · have hc : ((r.setChannel i _).channel c).present = true := hc
    rw [hchan c] at hc
    by_cases hci : c = i
    · rw [if_pos hci] at hc
      exact h.indexed c (hci ▸ hc)
    · rw [if_neg hci] at hc
      exact h.indexed c hc

/-- a detail, which appends a name, -/
theorem Kept.detail (h : Kept r) (d : Detail) (schema : Option Schema) : Kept (r.reflectDetail d schema) := by
  have hreserve : Kept (r.reserve d.index) := by
    refine ⟨fun c off hoff => ?_, fun c hc => ?_⟩
    · rw [channel_reserve] at hoff ⊢
      exact h.arena c off hoff
    · rw [channel_reserve] at hc
      exact h.indexed c hc
  have hlt := lt_reserve r d.index
  unfold reflectDetail
  split
  · exact h
  rename_i hname
  dsimp only
  split
  · exact (hreserve.putName hlt (by omega)).putDetail ((length_setChannel ..).symm ▸ hlt) ..
  · exact hreserve.putDetail hlt ..

/-- and a fold, which may compact them. -/
theorem Kept.fold (h : Kept r) : Kept (r.fold false) := by
  rw [fold_eq]
  obtain ⟨hcompact, harena⟩ := @compact_alike { r with dirty := false } h.arena
  have hsame := (cleared_same ({ r with dirty := false } : Reflect).compact).trans (passes_same _)
  refine ⟨fun c off hoff => ?_, fun c hc => ?_⟩
  · rw [hsame.nameOff] at hoff
    rw [hsame.nameLen, hsame.names]
    exact harena c off hoff
  · rw [hsame.present, hcompact.present] at hc
    exact h.indexed c hc

theorem Kept.step (h : Kept r) (ev : ReflectEvent) : Kept (r.step ev) := by
  cases ev with
  | interest list => exact h.interest list
  | detail d schema => exact h.detail d schema
  | fold => exact h.fold

/-- So does every run. -/
theorem Kept.run (evs : List ReflectEvent) (h : Kept r) : Kept (evs.foldl Reflect.step r) := by
  induction evs generalizing r with
  | nil => exact h
  | cons ev evs ih => exact ih (h.step ev)

theorem Kept.empty : Kept {} :=
  ⟨fun _ off h => absurd h.symm (Option.some_ne_none off), fun _ h => absurd h Bool.false_ne_true⟩

/-- After any run, where no two channels of a kind share a name and no two names a hash, a fold puts
every channel in the one entity it names, and every entity says what its channels are. -/
theorem fold_sound (evs : List ReflectEvent) (hd : Distinct (evs.foldl Reflect.step {}))
    (hnc : NoCollision (evs.foldl Reflect.step {})) :
    Folded (evs.foldl Reflect.step {}) ((evs.foldl Reflect.step {}).fold false) :=
  fold_folded (Kept.empty.run evs).arena (Kept.empty.run evs).indexed hd hnc

/-- A function whose response channel is named first, with a fold in between. -/
def pairRun : List ReflectEvent :=
  [.interest [2, 0, 43, 133, 13, 205, 10, 190, 117, 77, 205, 17],
    .detail ⟨1, 0, [102, 64, 114, 115, 112], 0, []⟩ none, .fold,
    .detail ⟨0, 0, [102, 64, 114, 101, 113], 0, []⟩ none]

theorem fold_sound_pair :
    Folded (pairRun.foldl Reflect.step {}) ((pairRun.foldl Reflect.step {}).fold false) := by
  have hlen : (pairRun.foldl Reflect.step {}).chan.length = 2 := by decide +kernel
  have hkinds : ((pairRun.foldl Reflect.step {}).channel 0).kind = kindFuncReq ∧
      ((pairRun.foldl Reflect.step {}).channel 1).kind = kindFuncRsp := by decide +kernel
  have hnames : (pairRun.foldl Reflect.step {}).nameOf 0 = some [102, 64, 114, 101, 113] ∧
      (pairRun.foldl Reflect.step {}).nameOf 1 = some [102, 64, 114, 115, 112] := by decide +kernel
  have htwo : ∀ c, ((pairRun.foldl Reflect.step {}).channel c).present = true → c = 0 ∨ c = 1 := by
    intro c hc
    have hlt := present_lt hc
    omega
  have hinvolved : ∀ n, Involved (pairRun.foldl Reflect.step {}) n →
      n = [102, 64, 114, 101, 113] ∨ n = [102, 64, 114, 115, 112] := by
    rintro n (⟨c, hc, hn⟩ | ⟨c, base, hc, hn, q, hq, hqc, rfl⟩)
    · obtain rfl | rfl := htwo c hc
      · exact Or.inl (Option.some.inj (hn.symm.trans hnames.1))
      · exact Or.inr (Option.some.inj (hn.symm.trans hnames.2))
    · obtain rfl | rfl := htwo c hc
      · rw [hkinds.1] at hqc hn
        have hbase : base ++ sfxReq = [102] ++ sfxReq := Option.some.inj (hn.symm.trans hnames.1)
        obtain rfl := List.append_cancel_right hbase
        have hrsp : ∀ q ∈ partnerKinds, q.2.2 = kindFuncReq → q.1 = sfxRsp := by decide
        rw [hrsp q hq hqc]
        exact Or.inr rfl
      · rw [hkinds.2] at hqc
        have hnone : ∀ q ∈ partnerKinds, q.2.2 ≠ kindFuncRsp := by decide
        exact absurd hqc (hnone q hq)
  refine fold_sound pairRun (fun c d n hc hd hkind hcn hdn => ?_) fun m n hm hn hhash => ?_
  · obtain rfl | rfl := htwo c hc
    · obtain rfl | rfl := htwo d hd
      · rfl
      · rw [hkinds.1, hkinds.2] at hkind
        exact absurd hkind (by decide)
    · obtain rfl | rfl := htwo d hd
      · rw [hkinds.1, hkinds.2] at hkind
        exact absurd hkind (by decide)
      · rfl
  · obtain rfl | rfl := hinvolved m hm
    · obtain rfl | rfl := hinvolved n hn
      · rfl
      · exact absurd hhash (by decide +kernel)
    · obtain rfl | rfl := hinvolved n hn
      · exact absurd hhash (by decide +kernel)
      · rfl

/-- A lone response channel without the suffix: the entity has the whole name, and the channel's
name is not the entity's and the suffix. -/
theorem lone_whole :
    ¬∀ evs : List ReflectEvent, Distinct (evs.foldl Reflect.step {}) → NoCollision (evs.foldl Reflect.step {}) →
      ∀ e ∈ ((evs.foldl Reflect.step {}).fold false).ent, ∀ q ∈ e.partners, q.1 ≠ none16 →
      ∀ n, ((evs.foldl Reflect.step {}).fold false).nameOf q.1 = some n →
        n = ((evs.foldl Reflect.step {}).fold false).entityName e ++ q.2.1 := by
  intro hall
  have h := hall [.interest [1, 0, 13, 147, 75, 28, 17], .detail ⟨0, 0, [102, 111, 111], 0, []⟩ none]
  generalize hevs : [ReflectEvent.interest [1, 0, 13, 147, 75, 28, 17], .detail ⟨0, 0, [102, 111, 111], 0, []⟩ none]
    = evs at h
  have hlen : (evs.foldl Reflect.step {}).chan.length = 1 := by rw [← hevs]; decide +kernel
  have hkind : ((evs.foldl Reflect.step {}).channel 0).kind = kindFuncRsp := by rw [← hevs]; decide +kernel
  have hname : (evs.foldl Reflect.step {}).nameOf 0 = some [102, 111, 111] := by rw [← hevs]; decide +kernel
  have hone : ∀ c, ((evs.foldl Reflect.step {}).channel c).present = true → c = 0 := by
    intro c hc
    have hlt := present_lt hc
    omega
  have hinvolved : ∀ n, Involved (evs.foldl Reflect.step {}) n → n = [102, 111, 111] := by
    rintro n (⟨c, hc, hn⟩ | ⟨c, base, hc, -, q, hq, hqc, -⟩)
    · obtain rfl := hone c hc
      exact Option.some.inj (hn.symm.trans hname)
    · obtain rfl := hone c hc
      rw [hkind] at hqc
      have hnone : ∀ q ∈ partnerKinds, q.2.2 ≠ kindFuncRsp := by decide
      exact absurd hqc (hnone q hq)
  have h := h (fun c d _ hc hd _ _ _ => (hone c hc).trans (hone d hd).symm)
    fun m n hm hn _ => (hinvolved m hm).trans (hinvolved n hn).symm
  have hent : ∃ e ∈ ((evs.foldl Reflect.step {}).fold false).ent, e.rsp = 0 ∧
      ((evs.foldl Reflect.step {}).fold false).entityName e = [102, 111, 111] ∧
      ((evs.foldl Reflect.step {}).fold false).nameOf 0 = some [102, 111, 111] := by
    rw [← hevs]
    decide +kernel
  obtain ⟨e, he, hrsp, hbase, hn⟩ := hent
  have hbad : ([102, 111, 111] : Bytes) = _ ++ sfxRsp := h e he _ List.mem_cons_self (show e.rsp ≠ none16 by rw [hrsp]; decide) _
    (show ((evs.foldl Reflect.step {}).fold false).nameOf e.rsp = _ by rw [hrsp]; exact hn)
  rw [hbase] at hbad
  exact absurd hbad (by decide)

end Reflect

end Rant.Node
