import Rant.Node.Reflect
/-!
# Folding channels into entities

A fold changes the entity slots of the channels and nothing else of them. `Slotted`: the channels of
an entity name its slot, and a slot that a channel names is an entity the channel is of. Pass 1
keeps it because two primaries of one kind with two names look for partners with two hashes, pass 2
because it takes channels nobody claimed.

Both passes are read off what the fold leaves alone: `Same` channels have the same partners by name
and kind (`Same.partner`), so each pass is followed on the table it started with, its marks apart.
`claimAll_eq` and `openPrimary_opens` say what one primary comes to, `Pass1.step` and `Pass2.step`
what a pass keeps from one channel to the next.
-/

namespace Rant.Node

open Rant.Lib
open Rant.Serialize (Bytes)
open Rant.Transport (topicNameMax)

/-! ## What a fold leaves alone -/

/-- The channels of an entity. -/
def PeerEntity.channels (e : PeerEntity) : List Nat :=
  [e.primary, e.rsp, e.prg, e.set].filter (· ≠ none16)

namespace Reflect

variable {r r' r'' : Reflect}

theorem channel_past {c : Nat} (h : r.chan.length ≤ c) : r.channel c = {} := by
  unfold channel
  rw [List.getD_eq_getElem?_getD, List.getElem?_eq_none h]
  rfl

theorem present_lt {c : Nat} (h : (r.channel c).present = true) : c < r.chan.length := by
  by_contra hc
  rw [channel_past (Nat.le_of_not_lt hc)] at h
  exact absurd h Bool.false_ne_true

theorem length_setChannel (i : Nat) (f : RantChannel → RantChannel) :
    (r.setChannel i f).chan.length = r.chan.length := List.length_modify ..

/-- A channel written is read at its place and nowhere else. -/
theorem channel_set {i : Nat} (hi : i < r.chan.length) (f : RantChannel → RantChannel) (c : Nat) :
    (r.setChannel i f).channel c = if c = i then f (r.channel i) else r.channel c := by
  unfold channel setChannel
  rw [List.getD_eq_getElem?_getD, List.getElem?_modify, List.getD_eq_getElem?_getD,
    List.getD_eq_getElem?_getD]
  by_cases hc : c = i
  · rw [hc, if_pos rfl, List.getElem?_eq_getElem hi]
    exact if_pos rfl
  rw [if_neg hc]
  cases r.chan[c]? with
  | none => rfl
  | some ch => exact if_neg fun h : i = c => hc h.symm

/-- The same but for the entity slots. -/
structure Same (r r' : Reflect) : Prop where
  length : r'.chan.length = r.chan.length
  names : r'.names = r.names
  chan : ∀ c, { r'.channel c with entity := none16 } = { r.channel c with entity := none16 }

theorem Same.refl (r : Reflect) : Same r r := ⟨rfl, rfl, fun _ => rfl⟩

theorem Same.trans (h : Same r r') (h' : Same r' r'') : Same r r'' :=
  ⟨h'.length.trans h.length, h'.names.trans h.names, fun c => (h'.chan c).trans (h.chan c)⟩

theorem Same.kind (h : Same r r') (c : Nat) : (r'.channel c).kind = (r.channel c).kind :=
  (RantChannel.mk.inj (h.chan c)).2.2.2.2.2.2.1

theorem Same.hash (h : Same r r') (c : Nat) : (r'.channel c).hash = (r.channel c).hash :=
  (RantChannel.mk.inj (h.chan c)).1

theorem Same.present (h : Same r r') (c : Nat) : (r'.channel c).present = (r.channel c).present :=
  (RantChannel.mk.inj (h.chan c)).2.2.2.2.2.2.2.2.2.2

theorem Same.nameOff (h : Same r r') (c : Nat) : (r'.channel c).nameOff = (r.channel c).nameOff :=
  (RantChannel.mk.inj (h.chan c)).2.1

theorem Same.nameLen (h : Same r r') (c : Nat) : (r'.channel c).nameLen = (r.channel c).nameLen :=
  (RantChannel.mk.inj (h.chan c)).2.2.2.2.2.1

theorem Same.nameAt (h : Same r r') (off len : Nat) : r'.nameAt off len = r.nameAt off len := by
  unfold Reflect.nameAt
  rw [h.names]

theorem Same.nameOf (h : Same r r') (c : Nat) : r'.nameOf c = r.nameOf c := by
  unfold Reflect.nameOf
  rw [h.nameOff, h.nameLen]
  congr 1
  exact funext fun off => h.nameAt off _

/-- Partners are found by what a fold leaves alone. -/
theorem Same.partner (h : Same r r') (sorted : List HashPair) (base suffix : Bytes) (kind : Nat) :
    r'.partner sorted base suffix kind = r.partner sorted base suffix kind := by
  have hfits : r'.partnerFits (base ++ suffix) kind = r.partnerFits (base ++ suffix) kind := by
    funext c
    unfold partnerFits
    rw [h.kind, h.nameOf]
  unfold Reflect.partner
  rw [hfits]

/-- Channels that take an entity slot. -/
def mark (r : Reflect) (slot : Nat) (l : List Nat) : Reflect :=
  l.foldl (fun r c => r.setChannel c fun ch => { ch with entity := slot }) r

theorem length_mark (slot : Nat) : ∀ (l : List Nat) (r : Reflect),
    (r.mark slot l).chan.length = r.chan.length
  | [], _ => rfl
  | c :: l, _ => (length_mark slot l _).trans (length_setChannel c _)

/-- The channels marked belong to the slot, the others as before. -/
theorem channel_mark (slot : Nat) : ∀ {l : List Nat} {r : Reflect}, (∀ c ∈ l, c < r.chan.length) →
    ∀ c, (r.mark slot l).channel c =
      if c ∈ l then { r.channel c with entity := slot } else r.channel c
  | [], r, _, c => (if_neg List.not_mem_nil).symm
  | i :: l, r, hl, c => by
    have hi := hl i List.mem_cons_self
    show ((r.setChannel i fun ch => { ch with entity := slot }).mark slot l).channel c = _
    rw [channel_mark slot (fun d hd => (length_setChannel i _).symm ▸ hl d (List.mem_cons_of_mem i hd)),
      channel_set hi]
    by_cases hc : c ∈ l
    · rw [if_pos hc, if_pos (List.mem_cons_of_mem i hc)]
      by_cases hci : c = i
      · rw [if_pos hci, hci]
      · rw [if_neg hci]
    · rw [if_neg hc]
      by_cases hci : c = i
      · rw [if_pos hci, if_pos (hci ▸ List.mem_cons_self), hci]
      · rw [if_neg hci, if_neg]
        rw [List.mem_cons, not_or]
        exact ⟨hci, hc⟩

theorem ent_mark (slot : Nat) : ∀ (l : List Nat) (r : Reflect), (r.mark slot l).ent = r.ent
  | [], _ => rfl
  | _ :: l, _ => ent_mark slot l _

theorem slot_same (r : Reflect) (c slot : Nat) :
    Same r (r.setChannel c fun ch => { ch with entity := slot }) := by
  refine ⟨length_setChannel c _, rfl, fun d => ?_⟩
  by_cases hc : c < r.chan.length
  · rw [channel_set hc]
    split
    · rename_i h
      rw [h]
    · rfl
  · unfold channel setChannel
    rw [List.modify_eq_self (Nat.le_of_not_lt hc)]

/-- Marking writes nothing else. -/
theorem mark_same (slot : Nat) : ∀ (l : List Nat) (r : Reflect), Same r (r.mark slot l)
  | [], _ => Same.refl _
  | c :: l, r => (slot_same r c slot).trans (mark_same slot l _)

theorem mark_append (slot : Nat) (l m : List Nat) (r : Reflect) :
    r.mark slot (l ++ m) = (r.mark slot l).mark slot m := List.foldl_append

/-! ## Slots -/

/-- Entities and the slots their channels name. -/
structure Slotted (r : Reflect) : Prop where
  slots : ∀ s e, r.ent[s]? = some e → ∀ c ∈ e.channels, c < r.chan.length ∧ (r.channel c).entity = s
  owners : ∀ c, c < r.chan.length → (r.channel c).entity ≠ none16 →
    ∃ e, r.ent[(r.channel c).entity]? = some e ∧ c ∈ e.channels

/-- An entity of channels that nobody claimed. -/
theorem Slotted.push (h : Slotted r) {e : PeerEntity} {l : List Nat} (hl : ∀ c, c ∈ l ↔ c ∈ e.channels)
    (hfree : ∀ c ∈ l, c < r.chan.length ∧ (r.channel c).entity = none16)
    (hroom : r.ent.length < none16) :
    Slotted (Reflect.push (r.mark r.ent.length l, e)) := by
  have hchan := channel_mark r.ent.length (fun c hc => (hfree c hc).1)
  have hent : (Reflect.push (r.mark r.ent.length l, e)).ent = r.ent ++ [e] := by
    show (r.mark r.ent.length l).ent ++ [e] = _
    rw [ent_mark]
  have hlen : (Reflect.push (r.mark r.ent.length l, e)).chan.length = r.chan.length :=
    length_mark _ _ _
  constructor
  · intro s e' he c hc
    rw [hlen]
    show c < r.chan.length ∧ ((r.mark r.ent.length l).channel c).entity = s
    rw [hchan c]
    rw [hent] at he
    by_cases hs : s < r.ent.length
    · rw [List.getElem?_append_left hs] at he
      obtain ⟨hclt, hcs⟩ := h.slots s e' he c hc
      refine ⟨hclt, ?_⟩
      rw [if_neg]
      · exact hcs
      · intro hcl
        rw [(hfree c hcl).2] at hcs
        unfold none16 at *
        omega
    · rw [List.getElem?_append_right (Nat.le_of_not_lt hs)] at he
      have hs' : s - r.ent.length = 0 := by
        by_contra hne
        obtain ⟨k, hk⟩ : ∃ k, s - r.ent.length = k + 1 := ⟨s - r.ent.length - 1, by omega⟩
        rw [hk] at he
        exact absurd he.symm (Option.some_ne_none e')
      rw [hs'] at he
      obtain rfl := Option.some.inj he
      have hcl := (hl c).mpr hc
      rw [if_pos hcl]
      exact ⟨(hfree c hcl).1, by show r.ent.length = s; omega⟩
  · intro c hc hne
    rw [hlen] at hc
    rw [hent]
    show ∃ e', (r.ent ++ [e])[((r.mark r.ent.length l).channel c).entity]? = some e' ∧ c ∈ e'.channels
    have hne : ((r.mark r.ent.length l).channel c).entity ≠ none16 := hne
    rw [hchan c] at hne ⊢
    by_cases hcl : c ∈ l
    · rw [if_pos hcl]
      refine ⟨e, ?_, (hl c).mp hcl⟩
      show (r.ent ++ [e])[r.ent.length]? = some e
      rw [List.getElem?_append_right (Nat.le_refl _), Nat.sub_self]
      rfl
    · rw [if_neg hcl] at hne ⊢
      obtain ⟨e', he', hmem⟩ := h.owners c hc hne
      obtain ⟨hlt, -⟩ := List.getElem?_eq_some_iff.mp he'
      refine ⟨e', ?_, hmem⟩
      rw [List.getElem?_append_left hlt]
      exact he'

/-! ## Partners -/

/-- The pairs lead to present channels of their hash. -/
def Led (r : Reflect) (sorted : List HashPair) : Prop :=
  ∀ p ∈ sorted, (r.channel p.index).present = true ∧ (r.channel p.index).hash = p.hash

/-- Sorting keeps where the pairs lead. -/
theorem sortedPairs_led (r : Reflect) : Led r r.sortedPairs := by
  intro p hp
  have hp := (shellSort_perm pairBelow _).mem_iff.mp hp
  obtain ⟨i, hi, rfl⟩ := List.mem_map.mp hp
  exact ⟨(List.mem_filter.mp hi).2, rfl⟩

/-- Channel `c` may be the partner of `kind` of what is named `base`. -/
structure Partner (r : Reflect) (base suffix : Bytes) (kind c : Nat) : Prop where
  present : (r.channel c).present = true
  kind : (r.channel c).kind = kind
  hash : (r.channel c).hash = hash32 (base ++ suffix)
  name : ∀ n, r.nameOf c = some n → n = base ++ suffix

variable {sorted : List HashPair} {suffix : Bytes}

/-- A partner found has the name and the kind looked for. -/
theorem partner_sound (hled : Led r sorted) {base : Bytes} {kind : Nat}
    (h : r.partner sorted base suffix kind ≠ none16) :
    Partner r base suffix kind (r.partner sorted base suffix kind) := by
  unfold partner at h ⊢
  split at h
  · exact absurd rfl h
  rename_i hlen
  rw [if_neg hlen]
  dsimp only at h ⊢
  cases hfind : List.find? (fun p => r.partnerFits (base ++ suffix) kind p.index)
      ((sorted.drop (lowerBound (fun p => decide (p.hash < hash32 (base ++ suffix))) sorted)).takeWhile
        fun p => p.hash = hash32 (base ++ suffix)) with
  | none =>
    rw [hfind] at h
    exact absurd rfl h
  | some p =>
    have hmem := List.mem_of_find?_eq_some hfind
    have hfits := List.find?_some hfind
    have hhash : p.hash = hash32 (base ++ suffix) := 
      of_decide_eq_true (List.all_eq_true.mp List.all_takeWhile p hmem)
    obtain ⟨hpresent, hch⟩ := hled p (List.mem_of_mem_drop ((List.takeWhile_sublist _).subset hmem))
    simp only [partnerFits, Bool.and_eq_true, beq_iff_eq] at hfits
    refine ⟨hpresent, hfits.1, hch.trans hhash, fun n hn => ?_⟩
    have hall := hfits.2
    rw [hn] at hall
    exact eq_of_beq hall

/-- A channel, where there is one. -/
def taken (c : Nat) : List Nat := [c].filter (· ≠ none16)

/-- A claim marks the partner found. -/
theorem claim_eq (hled : Led r sorted) (hsame : Same r r') {base : Bytes} {kind p : Nat}
    (hp : r.partner sorted base suffix kind = p) (slot : Nat) (required : Bool) (e : PeerEntity) :
    r'.claim sorted base slot suffix kind required e = (r'.mark slot (taken p),
      if p = none16 then (if required then { e with incomplete := true } else e)
      else attachTo e p kind) := by
  unfold claim
  rw [hsame.partner, hp]
  by_cases hnone : p = none16
  · rw [if_neg (not_not.mpr hnone), if_pos hnone, hnone]
    rfl
  have hfits := partner_sound hled (hp.symm ▸ hnone)
  rw [hp] at hfits
  rw [if_pos hnone, if_neg hnone]
  have htaken : taken p = [p] := List.filter_cons_of_pos (decide_eq_true hnone)
  unfold attach
  rw [hsame.kind, hfits.kind, htaken]
  rfl

/-- What a primary of `kind` named `base` claims: `a`, `b` and `d`, with `q` for what is missing. -/
structure Claims (r : Reflect) (base : Bytes) (kind a b d : Nat) (q : Bool) : Prop where
  rsp : a ≠ none16 → kind = kindFuncReq ∧ Partner r base sfxRsp kindFuncRsp a ∨
    kind = kindTaskReq ∧ Partner r base sfxRsp kindTaskRsp a
  prg : b ≠ none16 → kind = kindTaskReq ∧ Partner r base sfxPrg kindTaskPrg b
  set : d ≠ none16 → kind = kindVariable ∧ Partner r base sfxSet kindVarSet d
  func : q = false → kind = kindFuncReq → a ≠ none16
  task : q = false → kind = kindTaskReq → a ≠ none16 ∧ b ≠ none16

/-- An entity without partners. -/
structure Single (e : PeerEntity) : Prop where
  rsp : e.rsp = none16
  prg : e.prg = none16
  set : e.set = none16

theorem taken_three (a b d : Nat) :
    [a, b, d].filter (· ≠ none16) = taken a ++ (taken b ++ taken d) :=
  (List.filter_append [a] [b, d]).trans (congrArg (taken a ++ ·) (List.filter_append [b] [d]))

/-- The entity takes the partner in the slot of its kind, or notes that it is missing. -/
theorem claimed_eq {e : PeerEntity} {p kind : Nat} (required : Bool) (f : Nat → PeerEntity)
    (hf : attachTo e p kind = f p) (he : f none16 = e) :
    (if p = none16 then (if required then { e with incomplete := true } else e) else attachTo e p kind) =
      { f p with incomplete := (f p).incomplete || (required && decide (p = none16)) } := by
  by_cases hp : p = none16
  · rw [if_pos hp, hp, he, decide_eq_true rfl, Bool.and_true]
    cases required with
    | true => rw [Bool.or_true]; rfl
    | false => rw [Bool.or_false]; rfl
  · rw [if_neg hp, hf, decide_eq_false hp, Bool.and_false, Bool.or_false]

/-- The three claims of a primary mark what they find. -/
theorem claimAll_eq (hled : Led r sorted) (hsame : Same r r') (base : Bytes) (slot kind : Nat)
    {e : PeerEntity} (he : Single e) (hcomplete : e.incomplete = false) :
    ∃ a b d q, Claims r base kind a b d q ∧
      r'.claimAll sorted base slot kind e = (r'.mark slot ([a, b, d].filter (· ≠ none16)),
        { e with rsp := a, prg := b, set := d, incomplete := q }) := by
  obtain ⟨id, off, hash, primary, rsp, prg, set, len, ekind, incomplete⟩ := e
  obtain ⟨hrsp, hprg, hset⟩ := he
  dsimp only at hrsp hprg hset hcomplete
  subst hrsp hprg hset hcomplete
  unfold claimAll
  by_cases hfunc : kind = kindFuncReq
  · rw [if_pos hfunc, claim_eq hled hsame rfl,
      claimed_eq true (fun p => ⟨id, off, hash, primary, p, none16, none16, len, ekind, false⟩) rfl rfl]
    refine ⟨r.partner sorted base sfxRsp kindFuncRsp, none16, none16,
      decide (r.partner sorted base sfxRsp kindFuncRsp = none16), ⟨?_, ?_, ?_, ?_, ?_⟩, ?_⟩
    · exact fun h => Or.inl ⟨hfunc, partner_sound hled h⟩
    · exact fun h => absurd rfl h
    · exact fun h => absurd rfl h
    · exact fun h _ => of_decide_eq_false h
    · exact fun _ h => absurd (hfunc.symm.trans h) (by decide)
    · rw [taken_three]
      show _ = (r'.mark slot (taken _ ++ []), _)
      rw [List.append_nil]
      rfl
  rw [if_neg hfunc]
  by_cases htask : kind = kindTaskReq
  · have hrsp : r'.claim sorted base slot sfxRsp kindTaskRsp true
          ⟨id, off, hash, primary, none16, none16, none16, len, ekind, false⟩ =
        (r'.mark slot (taken (r.partner sorted base sfxRsp kindTaskRsp)),
          ⟨id, off, hash, primary, r.partner sorted base sfxRsp kindTaskRsp, none16, none16, len, ekind,
            decide (r.partner sorted base sfxRsp kindTaskRsp = none16)⟩) :=
      (claim_eq hled hsame rfl slot true _).trans (congrArg (Prod.mk _) (claimed_eq true
        (fun p => ⟨id, off, hash, primary, p, none16, none16, len, ekind, false⟩) rfl rfl))
    rw [if_pos htask, hrsp]
    -- the second suffix is looked for in what the first claim marked
    have hsame' := hsame.trans (mark_same slot (taken (r.partner sorted base sfxRsp kindTaskRsp)) r')
    dsimp only
    rw [claim_eq hled hsame' rfl,
      claimed_eq true (fun p => ⟨id, off, hash, primary, r.partner sorted base sfxRsp kindTaskRsp, p, none16,
        len, ekind, decide (r.partner sorted base sfxRsp kindTaskRsp = none16)⟩) rfl rfl]
    refine ⟨r.partner sorted base sfxRsp kindTaskRsp, r.partner sorted base sfxPrg kindTaskPrg, none16,
      decide (r.partner sorted base sfxRsp kindTaskRsp = none16) ||
        decide (r.partner sorted base sfxPrg kindTaskPrg = none16), ⟨?_, ?_, ?_, ?_, ?_⟩, ?_⟩
    · exact fun h => Or.inr ⟨htask, partner_sound hled h⟩
    · exact fun h => ⟨htask, partner_sound hled h⟩
    · exact fun h => absurd rfl h
    · exact fun _ h => absurd h hfunc
    · intro h _
      obtain ⟨hrsp, hprg⟩ := Bool.or_eq_false_iff.mp h
      exact ⟨of_decide_eq_false hrsp, of_decide_eq_false hprg⟩
    · rw [taken_three]
      show _ = (r'.mark slot (taken _ ++ (taken _ ++ [])), _)
      rw [List.append_nil, mark_append]
      rfl
  rw [if_neg htask]
  by_cases hvar : kind = kindVariable
  · rw [if_pos hvar, claim_eq hled hsame rfl,
      claimed_eq false (fun p => ⟨id, off, hash, primary, none16, none16, p, len, ekind, false⟩) rfl rfl]
    refine ⟨none16, none16, r.partner sorted base sfxSet kindVarSet, false, ⟨?_, ?_, ?_, ?_, ?_⟩, ?_⟩
    · exact fun h => absurd rfl h
    · exact fun h => absurd rfl h
    · exact fun h => ⟨hvar, partner_sound hled h⟩
    · exact fun _ h => absurd h hfunc
    · exact fun _ h => absurd h htask
    · rw [taken_three]
      rfl
  · rw [if_neg hvar]
    refine ⟨none16, none16, none16, false, ⟨?_, ?_, ?_, ?_, ?_⟩, rfl⟩
    · exact fun h => absurd rfl h
    · exact fun h => absurd rfl h
    · exact fun h => absurd rfl h
    · exact fun _ h => absurd h hfunc
    · exact fun _ h => absurd h htask

/-! ## Primaries -/

/-- The name an entity has. -/
def entityName (r : Reflect) (e : PeerEntity) : Bytes := r.nameAt e.nameOff e.nameLen

/-- The names lie in the arena, each with its terminator. -/
def Arena (r : Reflect) : Prop := ∀ c off, (r.channel c).nameOff = some off →
  off + (r.channel c).nameLen < r.names.length ∧ (r.channel c).nameLen ≤ topicNameMax

/-- A channel that opens an entity in pass 1. -/
def Primary (r : Reflect) (c : Nat) : Prop :=
  (r.channel c).present = true ∧ (r.channel c).kind < 8 ∧ (kindRow (r.channel c).kind).primary = true

instance (r : Reflect) (c : Nat) : Decidable (Primary r c) :=
  inferInstanceAs (Decidable (_ ∧ _ ∧ _))

/-- An entity of primary `i` with what it claimed under the name `base`. -/
structure Opened (r : Reflect) (i : Nat) (base : Bytes) (e : PeerEntity) : Prop where
  primary : e.primary = i
  kind : e.kind = (kindRow (r.channel i).kind).entity
  claims : Claims r base (r.channel i).kind e.rsp e.prg e.set e.incomplete
  named : r.nameOf i = some (base ++ (kindRow (r.channel i).kind).suffix) ∧ r.entityName e = base ∨
    e.channels = [i]

/-- An entity's channels are its primary, then the partners it has. -/
theorem channels_primary {e : PeerEntity} (h : e.primary ≠ none16) :
    e.channels = e.primary :: [e.rsp, e.prg, e.set].filter (· ≠ none16) :=
  List.filter_cons_of_pos (decide_eq_true h)

theorem Single.channels {e : PeerEntity} (he : Single e) {i : Nat} (hprimary : e.primary = i)
    (hi : i < none16) : e.channels = [i] := by
  rw [channels_primary (hprimary ▸ Nat.ne_of_lt hi), he.rsp, he.prg, he.set, hprimary]
  rfl

/-- Nothing is claimed without a name, which only a plain kind can do without. -/
theorem Claims.none (base : Bytes) {kind : Nat} {q : Bool} (hq : q = false → (kindRow kind).suffix = []) :
    Claims r base kind none16 none16 none16 q := by
  refine ⟨fun h => absurd rfl h, fun h => absurd rfl h, fun h => absurd rfl h, fun h hk => ?_, fun h hk => ?_⟩
  · have hsuffix := hq h
    rw [hk] at hsuffix
    exact absurd hsuffix (List.cons_ne_nil _ _)
  · have hsuffix := hq h
    rw [hk] at hsuffix
    exact absurd hsuffix (List.cons_ne_nil _ _)

/-- A name that carries a suffix is its base and the suffix. -/
theorem nameAt_split {off len : Nat} (h : off + len ≤ r.names.length)
    (hcarries : carries (r.nameAt off len) suffix = true) :
    r.nameAt off len = r.nameAt off (len - suffix.length) ++ suffix := by
  simp only [carries, Bool.and_eq_true, decide_eq_true_eq, beq_iff_eq] at hcarries
  have hlen : (r.nameAt off len).length = len := by
    unfold nameAt
    rw [List.length_take, List.length_drop]
    omega
  rw [hlen] at hcarries
  have htake : r.nameAt off (len - suffix.length) = (r.nameAt off len).take (len - suffix.length) := by
    unfold nameAt
    rw [List.take_take, Nat.min_eq_left (Nat.sub_le _ _)]
  calc r.nameAt off len
      = (r.nameAt off len).take (len - suffix.length) ++ (r.nameAt off len).drop (len - suffix.length) :=
        (List.take_append_drop _ _).symm
    _ = r.nameAt off (len - suffix.length) ++ suffix := by rw [hcarries.2, htake]

theorem openPrimary_skip {i : Nat} (h : ¬Primary r i) : openPrimary sorted r i = r := by
  unfold openPrimary
  dsimp only
  rw [if_pos]
  simp only [Bool.or_eq_true, Bool.not_eq_true', decide_eq_true_eq]
  unfold Primary at h
  by_contra hnot
  rw [not_or, not_or, Bool.not_eq_false, Bool.not_eq_false] at hnot
  exact h ⟨hnot.1.1, Nat.lt_of_not_le hnot.1.2, hnot.2⟩

/-- A named primary claims its partners. -/
theorem claimAll_opens (hled : Led r sorted) {slot i : Nat} {base : Bytes}
    (hsame : Same r (r'.mark slot [i])) {e : PeerEntity} (he : Single e)
    (hcomplete : e.incomplete = false) (hprimary : e.primary = i) (hi : i < none16)
    (hkind : e.kind = (kindRow (r.channel i).kind).entity)
    (hname : r.nameOf i = some (base ++ (kindRow (r.channel i).kind).suffix))
    (hbase : r.entityName e = base) :
    ∃ e', Opened r i base e' ∧ push ((r'.mark slot [i]).claimAll sorted base slot (r.channel i).kind e) =
      push (r'.mark slot e'.channels, e') := by
  obtain ⟨a, b, d, q, hclaims, heq⟩ := claimAll_eq hled hsame base slot (r.channel i).kind he hcomplete
  refine ⟨{ e with rsp := a, prg := b, set := d, incomplete := q },
    ⟨hprimary, hkind, hclaims, Or.inl ⟨hname, hbase⟩⟩, ?_⟩
  have hchannels : PeerEntity.channels { e with rsp := a, prg := b, set := d, incomplete := q } =
      [i] ++ [a, b, d].filter (· ≠ none16) := by
    have hsome : e.primary ≠ none16 := hprimary ▸ Nat.ne_of_lt hi
    have h := @channels_primary { e with rsp := a, prg := b, set := d, incomplete := q } hsome
    exact h.trans (congrArg (· :: _) hprimary)
  rw [heq, hchannels, mark_append]

/-- A primary opens an entity at the next slot and marks its channels. -/
theorem openPrimary_opens (hled : Led r sorted) (hsame : Same r r') (harena : Arena r) {i : Nat}
    (hp : Primary r i) (hi : i < none16) (hroom : r'.ent.length < none16) :
    ∃ e base, Opened r i base e ∧
      openPrimary sorted r' i = push (r'.mark r'.ent.length e.channels, e) := by
  obtain ⟨hpresent, hkind, hrow⟩ := hp
  have hsame₁ : Same r (r'.mark r'.ent.length [i]) := hsame.trans (mark_same _ [i] r')
  have hslot : r'.ent.length % 2 ^ 16 = r'.ent.length := Nat.mod_eq_of_lt (Nat.lt_succ_of_lt hroom)
  have hidx : i % 2 ^ 16 = i := Nat.mod_eq_of_lt (Nat.lt_succ_of_lt hi)
  unfold openPrimary
  dsimp only
  rw [hsame.kind, hsame.present, hsame.nameOff, hsame.nameLen, hslot, hidx, if_neg]
  swap
  · rw [hpresent, hrow, decide_eq_false (Nat.not_le_of_lt hkind)]
    exact Bool.false_ne_true
  cases hoff : (r.channel i).nameOff with
  | none =>
    -- partners need the name
    have hchannels := @Single.channels
      { kind := (kindRow (r.channel i).kind).entity, primary := i, hash := (r'.channel i).hash
        incomplete := decide ((kindRow (r.channel i).kind).suffix ≠ []) }
      ⟨rfl, rfl, rfl⟩ i rfl hi
    refine ⟨_, [], ⟨rfl, rfl, Claims.none [] fun h => ?_, Or.inr hchannels⟩, ?_⟩
    · exact Decidable.of_not_not (of_decide_eq_false h)
    · rw [hchannels]
      rfl
  | some off =>
    obtain ⟨hfit, hshort⟩ := harena i off hoff
    have hname : r.nameOf i = some (r.nameAt off (r.channel i).nameLen) := by
      unfold nameOf
      rw [hoff]
      rfl
    have hfits : ∀ len, len ≤ (r.channel i).nameLen → len % 2 ^ 8 = len := fun len hle =>
      Nat.mod_eq_of_lt (Nat.lt_of_le_of_lt (hle.trans hshort) (by decide))
    have hbase : ∀ (e : PeerEntity) len, len ≤ (r.channel i).nameLen →
        r.entityName ((r'.mark r'.ent.length [i]).setName e off len) = r.nameAt off len := by
      intro e len hle
      show r.nameAt off (len % 2 ^ 8) = _
      rw [hfits len hle]
    have hat : ∀ len, (r'.mark r'.ent.length [i]).nameAt off len = r.nameAt off len := hsame₁.nameAt off
    have hopen := fun len hle hsplit => claimAll_opens hled hsame₁
      (@Single.mk ((r'.mark r'.ent.length [i]).setName { kind := (kindRow (r.channel i).kind).entity
                                                         primary := i, hash := (r'.channel i).hash } off len)
        rfl rfl rfl) rfl rfl hi rfl (hname.trans (congrArg some hsplit)) (hbase _ len hle)
    show ∃ e base, Opened r i base e ∧
      (if (kindRow (r.channel i).kind).suffix = [] then
        push ((r'.mark r'.ent.length [i]).claimAll sorted
          ((r'.mark r'.ent.length [i]).nameAt off (r.channel i).nameLen) r'.ent.length (r.channel i).kind
          ((r'.mark r'.ent.length [i]).setName _ off (r.channel i).nameLen))
      else if carries ((r'.mark r'.ent.length [i]).nameAt off (r.channel i).nameLen)
          (kindRow (r.channel i).kind).suffix then
        push ((r'.mark r'.ent.length [i]).claimAll sorted
          ((r'.mark r'.ent.length [i]).nameAt off
            ((r.channel i).nameLen - (kindRow (r.channel i).kind).suffix.length)) r'.ent.length (r.channel i).kind
          ((r'.mark r'.ent.length [i]).setName _ off
            ((r.channel i).nameLen - (kindRow (r.channel i).kind).suffix.length)))
      else push (r'.mark r'.ent.length [i], (r'.mark r'.ent.length [i]).setName _ off (r.channel i).nameLen)) = _
    rw [hat, hat]
    by_cases hplain : (kindRow (r.channel i).kind).suffix = []
    · rw [if_pos hplain]
      obtain ⟨e, ho, heq⟩ := hopen (r.channel i).nameLen (Nat.le_refl _)
        (by rw [hplain, List.append_nil])
      exact ⟨e, _, ho, heq⟩
    rw [if_neg hplain]
    by_cases hcarries : carries (r.nameAt off (r.channel i).nameLen) (kindRow (r.channel i).kind).suffix = true
    · rw [if_pos hcarries]
      obtain ⟨e, ho, heq⟩ := hopen _ (Nat.sub_le _ _) (nameAt_split hfit.le hcarries)
      exact ⟨e, _, ho, heq⟩
    · -- a pattern kind without the convention
      rw [if_neg hcarries]
      have hchannels := @Single.channels ((r'.mark r'.ent.length [i]).setName
        { kind := (kindRow (r.channel i).kind).entity, primary := i, hash := (r'.channel i).hash
          incomplete := true } off (r.channel i).nameLen) ⟨rfl, rfl, rfl⟩ i rfl hi
      refine ⟨_, [], ⟨rfl, rfl, Claims.none [] fun h => ?_, Or.inr hchannels⟩, ?_⟩
      · exact absurd h.symm Bool.false_ne_true
      · rw [hchannels]

/-! ## What an entity is -/

end Reflect

/-- The slots of an entity's partners, each with its suffix and its kind. -/
def PeerEntity.partners (e : PeerEntity) : List (Nat × Bytes × Nat) :=
  [(e.rsp, sfxRsp, if e.kind = .task then kindTaskRsp else kindFuncRsp), (e.prg, sfxPrg, kindTaskPrg),
    (e.set, sfxSet, kindVarSet)]

namespace Reflect

variable {r r' r'' : Reflect}

/-- An entity that says what its channels are. -/
structure Sound (r : Reflect) (e : PeerEntity) : Prop where
  inhabited : e.channels ≠ []
  members : ∀ c ∈ e.channels, (r.channel c).present = true ∧ (r.channel c).kind ≠ kindCallObs
  primary : e.primary ≠ none16 → e.kind = (kindRow (r.channel e.primary).kind).entity
  kinds : ∀ q ∈ e.partners, q.1 ≠ none16 → (r.channel q.1).kind = q.2.2
  named : e.primary ≠ none16 → ∀ q ∈ e.partners, q.1 ≠ none16 →
    ∀ n, r.nameOf q.1 = some n → n = r.entityName e ++ q.2.1
  alone : e.primary = none16 → ∃ q ∈ e.partners, e.channels = [q.1] ∧ ∀ n, r.nameOf q.1 = some n →
    n = r.entityName e ++ q.2.1 ∨ carries n q.2.1 = false ∧ n = r.entityName e
  complete : e.incomplete = false → e.primary ≠ none16 ∧ (e.kind = .function → e.rsp ≠ none16) ∧
    (e.kind = .task → e.rsp ≠ none16 ∧ e.prg ≠ none16)

/-- What a primary claims: the suffix, the kind, and the primary's own kind. -/
def partnerKinds : List (Bytes × Nat × Nat) :=
  [(sfxRsp, kindFuncRsp, kindFuncReq), (sfxRsp, kindTaskRsp, kindTaskReq),
    (sfxPrg, kindTaskPrg, kindTaskReq), (sfxSet, kindVarSet, kindVariable)]

/-- No kind is the partner of two. -/
theorem partnerKinds_kind : ∀ q ∈ partnerKinds, ∀ q' ∈ partnerKinds, q.2.1 = q'.2.1 → q = q' := by decide

theorem partnerKinds_lone : ∀ q ∈ partnerKinds, (kindRow q.2.1).primary = false ∧ q.2.1 ≠ kindCallObs := by
  decide

theorem primaryKind : ∀ k < 8, (kindRow k).primary = true →
    ((kindRow k).entity = .function → k = kindFuncReq) ∧ ((kindRow k).entity = .task → k = kindTaskReq) := by
  decide

theorem mem_three {α : Type} {a b c q : α} : q ∈ [a, b, c] ↔ q = a ∨ q = b ∨ q = c := by
  simp only [List.mem_cons, List.not_mem_nil, or_false]

variable {e : PeerEntity}

theorem mem_channels {c : Nat} :
    c ∈ e.channels ↔ c ≠ none16 ∧ (c = e.primary ∨ c = e.rsp ∨ c = e.prg ∨ c = e.set) := by
  unfold PeerEntity.channels
  rw [List.mem_filter, decide_eq_true_iff, and_comm]
  simp only [List.mem_cons, List.not_mem_nil, or_false]

variable {i : Nat}

/-- A channel of an entity is its primary, or a partner the primary claimed. -/
theorem Opened.member {base : Bytes} (h : Opened r i base e) {c : Nat}
    (hc : c ∈ e.channels) : c = i ∨
    ∃ q ∈ partnerKinds, q.2.2 = (r.channel i).kind ∧ Partner r base q.1 q.2.1 c ∧
      r.nameOf i = some (base ++ (kindRow (r.channel i).kind).suffix) := by
  obtain ⟨hname, -⟩ | halone := h.named
  swap
  · rw [halone] at hc
    exact Or.inl (List.mem_singleton.mp hc)
  obtain ⟨hne, rfl | rfl | rfl | rfl⟩ := mem_channels.mp hc
  · exact Or.inl h.primary
  · obtain ⟨hk, hp⟩ | ⟨hk, hp⟩ := h.claims.rsp hne
    · exact Or.inr ⟨_, List.mem_cons_self, hk.symm, hp, hname⟩
    · exact Or.inr ⟨_, List.mem_cons_of_mem _ List.mem_cons_self, hk.symm, hp, hname⟩
  · obtain ⟨hk, hp⟩ := h.claims.prg hne
    exact Or.inr ⟨(sfxPrg, kindTaskPrg, kindTaskReq), by decide, hk.symm, hp, hname⟩
  · obtain ⟨hk, hp⟩ := h.claims.set hne
    exact Or.inr ⟨(sfxSet, kindVarSet, kindVariable), by decide, hk.symm, hp, hname⟩

/-- What opens is sound. -/
theorem Opened.sound {base : Bytes} (h : Opened r i base e) (hp : Primary r i)
    (hi : i < none16) : Sound r e := by
  have hprimary : e.primary ≠ none16 := h.primary ▸ Nat.ne_of_lt hi
  have hkinds : ∀ k, (r.channel i).kind = k → e.kind = (kindRow k).entity := fun k hk => hk ▸ h.kind
  constructor
  · rw [channels_primary hprimary]
    exact List.cons_ne_nil _ _
  · intro c hc
    obtain rfl | ⟨q, hq, -, hpartner, -⟩ := h.member hc
    · exact ⟨hp.1, Nat.ne_of_lt hp.2.1⟩
    · exact ⟨hpartner.present, hpartner.kind ▸ (partnerKinds_lone q hq).2⟩
  · intro _
    rw [h.primary]
    exact h.kind
  · intro q hq hne
    obtain rfl | rfl | rfl := mem_three.mp hq
    · obtain ⟨hk, hc⟩ | ⟨hk, hc⟩ := h.claims.rsp hne
      · rw [hc.kind, hkinds _ hk]
        rfl
      · rw [hc.kind, hkinds _ hk]
        rfl
    · exact (h.claims.prg hne).2.kind
    · exact (h.claims.set hne).2.kind
  · intro _ q hq hne n hn
    have hmem : q.1 ∈ [e.rsp, e.prg, e.set].filter (· ≠ none16) := by
      refine List.mem_filter.mpr ⟨?_, decide_eq_true hne⟩
      obtain rfl | rfl | rfl := mem_three.mp hq
      · exact List.mem_cons_self
      · exact List.mem_cons_of_mem _ List.mem_cons_self
      · exact List.mem_cons_of_mem _ (List.mem_cons_of_mem _ List.mem_cons_self)
    obtain ⟨-, hbase⟩ | halone := h.named
    swap
    · rw [channels_primary hprimary] at halone
      rw [(List.cons.inj halone).2] at hmem
      exact absurd hmem List.not_mem_nil
    rw [hbase]
    obtain rfl | rfl | rfl := mem_three.mp hq
    · obtain ⟨hk, hc⟩ | ⟨hk, hc⟩ := h.claims.rsp hne
      · exact hc.name n hn
      · exact hc.name n hn
    · exact (h.claims.prg hne).2.name n hn
    · exact (h.claims.set hne).2.name n hn
  · exact fun hnone => absurd hnone hprimary
  · intro hcomplete
    have hkind := primaryKind _ hp.2.1 hp.2.2
    exact ⟨hprimary, fun hfunc => h.claims.func hcomplete (hkind.1 (h.kind ▸ hfunc)),
      fun htask => h.claims.task hcomplete (hkind.2 (h.kind ▸ htask))⟩

/-! ## Pass 1 -/

/-- No two channels of one kind share a name. -/
def Distinct (r : Reflect) : Prop := ∀ c d n, (r.channel c).present = true → (r.channel d).present = true →
  (r.channel c).kind = (r.channel d).kind → r.nameOf c = some n → r.nameOf d = some n → c = d

/-- The names of the channels, and of the partners the primaries look for. -/
def Involved (r : Reflect) (n : Bytes) : Prop :=
  (∃ c, (r.channel c).present = true ∧ r.nameOf c = some n) ∨
  ∃ c base, (r.channel c).present = true ∧
    r.nameOf c = some (base ++ (kindRow (r.channel c).kind).suffix) ∧
    ∃ q ∈ partnerKinds, q.2.2 = (r.channel c).kind ∧ n = base ++ q.1

/-- No two names involved share a hash. -/
def NoCollision (r : Reflect) : Prop :=
  ∀ m n, Involved r m → Involved r n → hash32 m = hash32 n → m = n

/-- The indices are not the one that stands for none. -/
def Indexed (r : Reflect) : Prop := ∀ c, (r.channel c).present = true → c < none16

/-- Two primaries claim nothing in common. -/
theorem Opened.apart (hd : Distinct r) (hnc : NoCollision r) {j : Nat} {base base' : Bytes}
    {e' : PeerEntity} (hi : Primary r i) (hj : Primary r j) (h : Opened r i base e)
    (h' : Opened r j base' e') {c : Nat} (hc : c ∈ e.channels) (hc' : c ∈ e'.channels) : i = j := by
  obtain rfl | ⟨q, hq, hqi, hp, hname⟩ := h.member hc
  · obtain rfl | ⟨q', hq', -, hp', -⟩ := h'.member hc'
    · rfl
    · exact absurd hi.2.2 (Bool.eq_false_iff.mp (hp'.kind ▸ (partnerKinds_lone q' hq').1))
  obtain rfl | ⟨q', hq', hqj, hp', hname'⟩ := h'.member hc'
  · exact absurd hj.2.2 (Bool.eq_false_iff.mp (hp.kind ▸ (partnerKinds_lone q hq).1))
  obtain rfl := partnerKinds_kind q hq q' hq' (hp.kind.symm.trans hp'.kind)
  have hbase : base ++ q.1 = base' ++ q.1 :=
    hnc _ _ (Or.inr ⟨i, base, hi.1, hname, q, hq, hqi, rfl⟩) (Or.inr ⟨j, base', hj.1, hname', q, hq, hqj, rfl⟩)
      (hp.hash.symm.trans hp'.hash)
  obtain rfl := List.append_cancel_right hbase
  have hkind : (r.channel i).kind = (r.channel j).kind := hqi.symm.trans hqj
  exact hd i j _ hi.1 hj.1 hkind hname (hkind ▸ hname')

/-- Fewer values than arguments, where an argument is left over. -/
theorem values_lt {n m : Nat} (f : Nat → Nat) (hi : i < n)
    (h : ∀ s, s < m → ∃ c, c < n ∧ c ≠ i ∧ f c = s) : m < n := by
  have hsub : List.range m ⊆ ((List.range n).filter (· ≠ i)).map f := by
    intro s hs
    obtain ⟨c, hc, hci, hcs⟩ := h s (List.mem_range.mp hs)
    exact List.mem_map.mpr ⟨c, List.mem_filter.mpr ⟨List.mem_range.mpr hc, decide_eq_true hci⟩, hcs⟩
  have hlen := (List.subperm_of_subset List.nodup_range hsub).length_le
  rw [List.length_map, List.length_range] at hlen
  refine Nat.lt_of_le_of_lt hlen ?_
  calc ((List.range n).filter (· ≠ i)).length
      < (List.range n).length := List.length_filter_lt_length_iff_exists.mpr
        ⟨i, List.mem_range.mpr hi, fun hne => of_decide_eq_true hne rfl⟩
    _ = n := List.length_range

/-- There is a slot for the entity of a channel that has none. -/
theorem Slotted.room (h : Slotted r) (hix : Indexed r') (hsound : ∀ e ∈ r.ent, Sound r' e)
    (hi : i < none16) (hfree : (r.channel i).entity = none16) : r.ent.length < none16 := by
  have hlt : min r.ent.length none16 < none16 := by
    refine values_lt (fun c => (r.channel c).entity) hi fun s hs => ?_
    obtain ⟨hs, hsn⟩ := Nat.lt_min.mp hs
    have he := List.getElem?_eq_getElem hs
    have hs' := hsound _ (List.mem_of_getElem? he)
    obtain ⟨c, hc⟩ := List.exists_mem_of_ne_nil _ hs'.inhabited
    obtain ⟨-, hcs⟩ := h.slots s _ he c hc
    refine ⟨c, hix c (hs'.members c hc).1, fun hci => ?_, hcs⟩
    rw [hci, hfree] at hcs
    exact Nat.ne_of_lt hsn hcs.symm
  omega

theorem push_same {s : Reflect} (h : Same r s) (e : PeerEntity) : Same r (push (s, e)) :=
  ⟨h.length, h.names, h.chan⟩

/-- A channel that had a slot keeps having one. -/
theorem push_claimed {l : List Nat} (hl : ∀ c ∈ l, c < r.chan.length) {slot : Nat} (hslot : slot < none16)
    (e : PeerEntity) {c : Nat} (h : c ∈ l ∨ (r.channel c).entity ≠ none16) :
    ((push (r.mark slot l, e)).channel c).entity ≠ none16 := by
  show ((r.mark slot l).channel c).entity ≠ none16
  rw [channel_mark slot hl]
  by_cases hc : c ∈ l
  · rw [if_pos hc]
    exact Nat.ne_of_lt hslot
  · rw [if_neg hc]
    exact h.resolve_left hc

/-- Where pass 1 is before channel `k`. -/
structure Pass1 (r r' : Reflect) (k : Nat) : Prop where
  same : Same r r'
  slotted : Slotted r'
  opened : ∀ e ∈ r'.ent, ∃ i base, i < k ∧ Primary r i ∧ Opened r i base e
  done : ∀ i, i < k → Primary r i → (r'.channel i).entity ≠ none16

theorem Same.primary (h : Same r r') (c : Nat) : Primary r' c ↔ Primary r c := by
  unfold Primary
  rw [h.present, h.kind]

/-- The next channel opens or is skipped, and the pass goes on. -/
theorem Pass1.step {sorted : List HashPair} (hled : Led r sorted) (harena : Arena r) (hix : Indexed r)
    (hd : Distinct r) (hnc : NoCollision r) {k : Nat} (h : Pass1 r r' k) :
    Pass1 r (openPrimary sorted r' k) (k + 1) := by
  by_cases hk : Primary r k
  swap
  · rw [openPrimary_skip fun hk' => hk ((h.same.primary k).mp hk')]
    refine ⟨h.same, h.slotted, fun e he => ?_, fun i hi hp => ?_⟩
    · obtain ⟨i, base, hi, ho⟩ := h.opened e he
      exact ⟨i, base, Nat.lt_succ_of_lt hi, ho⟩
    · refine h.done i (Nat.lt_of_le_of_ne (Nat.le_of_lt_succ hi) fun heq => ?_) hp
      exact hk (heq ▸ hp)
  have hsound : ∀ e ∈ r'.ent, Sound r e := by
    intro e he
    obtain ⟨i, base, -, hp, ho⟩ := h.opened e he
    exact ho.sound hp (hix i hp.1)
  -- what an entity holds already is not of this primary
  have hfree : ∀ base e, Opened r k base e → ∀ c ∈ e.channels, c < r'.chan.length ∧ (r'.channel c).entity = none16 := by
    intro base e ho c hc
    have hlt : c < r'.chan.length :=
      h.same.length.symm ▸ present_lt ((ho.sound hk (hix k hk.1)).members c hc).1
    refine ⟨hlt, ?_⟩
    by_contra hne
    obtain ⟨e', he', hmem⟩ := h.slotted.owners c hlt hne
    obtain ⟨i, base', hi, hp, ho'⟩ := h.opened e' (List.mem_of_getElem? he')
    exact Nat.ne_of_lt hi (ho'.apart hd hnc hp hk ho hmem hc)
  have hunclaimed : (r'.channel k).entity = none16 := by
    by_contra hne
    obtain ⟨e', he', hmem⟩ := h.slotted.owners k (h.same.length.symm ▸ present_lt hk.1) hne
    obtain ⟨i, base', hi, -, ho'⟩ := h.opened e' (List.mem_of_getElem? he')
    obtain rfl | ⟨q, hq, -, hp, -⟩ := ho'.member hmem
    · exact Nat.lt_irrefl _ hi
    · exact absurd hk.2.2 (Bool.eq_false_iff.mp (hp.kind ▸ (partnerKinds_lone q hq).1))
  have hroom := h.slotted.room hix hsound (hix k hk.1) hunclaimed
  obtain ⟨e, base, ho, heq⟩ := openPrimary_opens hled h.same harena hk (hix k hk.1) hroom
  have hl : ∀ c ∈ e.channels, c < r'.chan.length := fun c hc => (hfree base e ho c hc).1
  rw [heq]
  refine ⟨push_same (h.same.trans (mark_same _ _ r')) e, h.slotted.push (fun _ => Iff.rfl) (hfree base e ho) hroom,
    fun e' he' => ?_, fun i hi hp => ?_⟩
  · have he' : e' ∈ (r'.mark r'.ent.length e.channels).ent ++ [e] := he'
    rw [ent_mark] at he'
    obtain he' | he' := List.mem_append.mp he'
    · obtain ⟨i, base, hi, ho⟩ := h.opened e' he'
      exact ⟨i, base, Nat.lt_succ_of_lt hi, ho⟩
    · obtain rfl := List.mem_singleton.mp he'
      exact ⟨k, base, Nat.lt_succ_self k, hk, ho⟩
  · refine push_claimed hl hroom e ?_
    obtain hi | rfl := Nat.lt_succ_iff_lt_or_eq.mp hi
    · exact Or.inr (h.done i hi hp)
    · refine Or.inl (mem_channels.mpr ⟨Nat.ne_of_lt (hix i hp.1), Or.inl ho.primary.symm⟩)

/-! ## Pass 2 -/

theorem loneKinds : ∀ k < 8, (kindRow k).primary = false → k = kindFuncRsp ∨ k = kindVarSet ∨
    k = kindTaskPrg ∨ k = kindTaskRsp := by decide

/-- A channel that nobody claimed sits in the one slot of its kind. -/
theorem attachTo_lone {k : Nat} (hi : i ≠ none16) (hk : k < 8) (hrow : (kindRow k).primary = false)
    (he : Single e) (hprimary : e.primary = none16) (hkind : e.kind = (kindRow k).entity) :
    (attachTo e i k).primary = none16 ∧ (attachTo e i k).incomplete = e.incomplete ∧
      (attachTo e i k).channels = [i] ∧
      (i, (kindRow k).suffix, k) ∈ (attachTo e i k).partners ∧
      ∀ q ∈ (attachTo e i k).partners, q = (i, (kindRow k).suffix, k) ∨ q.1 = none16 := by
  obtain ⟨id, off, hash, primary, rsp, prg, set, len, ekind, incomplete⟩ := e
  obtain ⟨hrsp, hprg, hset⟩ := he
  dsimp only at hrsp hprg hset hprimary hkind
  subst hrsp hprg hset hprimary hkind
  have hfilter : [i].filter (· ≠ none16) = [i] := List.filter_cons_of_pos (decide_eq_true hi)
  obtain rfl | rfl | rfl | rfl := loneKinds k hk hrow
  · refine ⟨rfl, rfl, ?_, List.mem_cons_self, ?_⟩
    · show [none16, i, none16, none16].filter (· ≠ none16) = [i]
      exact (List.filter_append [i] [none16, none16]).trans (congrArg (· ++ []) hfilter)
    · intro q hq
      obtain rfl | rfl | rfl := mem_three.mp hq
      · exact Or.inl rfl
      · exact Or.inr rfl
      · exact Or.inr rfl
  · refine ⟨rfl, rfl, hfilter, List.mem_cons_of_mem _ (List.mem_cons_of_mem _ List.mem_cons_self), ?_⟩
    intro q hq
    obtain rfl | rfl | rfl := mem_three.mp hq
    · exact Or.inr rfl
    · exact Or.inr rfl
    · exact Or.inl rfl
  · refine ⟨rfl, rfl, ?_, List.mem_cons_of_mem _ List.mem_cons_self, ?_⟩
    · show [none16, none16, i, none16].filter (· ≠ none16) = [i]
      exact (List.filter_append [i] [none16]).trans (congrArg (· ++ []) hfilter)
    · intro q hq
      obtain rfl | rfl | rfl := mem_three.mp hq
      · exact Or.inr rfl
      · exact Or.inl rfl
      · exact Or.inr rfl
  · refine ⟨rfl, rfl, ?_, List.mem_cons_self, ?_⟩
    · show [none16, i, none16, none16].filter (· ≠ none16) = [i]
      exact (List.filter_append [i] [none16, none16]).trans (congrArg (· ++ []) hfilter)
    · intro q hq
      obtain rfl | rfl | rfl := mem_three.mp hq
      · exact Or.inl rfl
      · exact Or.inr rfl
      · exact Or.inr rfl

/-- An entity of one channel that nobody claimed. -/
theorem Sound.lone (hpresent : (r.channel i).present = true)
    (hk : (r.channel i).kind < 8) (hrow : (kindRow (r.channel i).kind).primary = false)
    (hprimary : e.primary = none16) (hchannels : e.channels = [i])
    (hmem : (i, (kindRow (r.channel i).kind).suffix, (r.channel i).kind) ∈ e.partners)
    (hone : ∀ q ∈ e.partners, q = (i, (kindRow (r.channel i).kind).suffix, (r.channel i).kind) ∨ q.1 = none16)
    (hincomplete : e.incomplete = true)
    (hname : ∀ n, r.nameOf i = some n → n = r.entityName e ++ (kindRow (r.channel i).kind).suffix ∨
      carries n (kindRow (r.channel i).kind).suffix = false ∧ n = r.entityName e) : Sound r e := by
  constructor
  · rw [hchannels]
    exact List.cons_ne_nil _ _
  · intro c hc
    rw [hchannels] at hc
    obtain rfl := List.mem_singleton.mp hc
    exact ⟨hpresent, Nat.ne_of_lt hk⟩
  · exact fun hne => absurd hprimary hne
  · intro q hq hne
    obtain rfl | hnone := hone q hq
    · rfl
    · exact absurd hnone hne
  · exact fun hne => absurd hprimary hne
  · exact fun _ => ⟨_, hmem, hchannels, hname⟩
  · intro hcomplete
    rw [hincomplete] at hcomplete
    exact absurd hcomplete.symm Bool.false_ne_true

theorem kindRow_foreign {k : Nat} (hk : 8 ≤ k) : (kindRow k).entity = .topic := by
  unfold kindRow
  split <;> first | rfl | omega

/-- An entity of a channel of a kind nobody knows. -/
theorem Sound.foreign (hpresent : (r.channel i).present = true)
    (hk : 8 ≤ (r.channel i).kind) (hobs : (r.channel i).kind ≠ kindCallObs) (he : Single e)
    (hprimary : e.primary = i) (hi : i < none16) (hkind : e.kind = .topic)
    (hincomplete : e.incomplete = true) : Sound r e := by
  have hnone : ∀ q ∈ e.partners, q.1 = none16 := by
    intro q hq
    obtain rfl | rfl | rfl := mem_three.mp hq
    · exact he.rsp
    · exact he.prg
    · exact he.set
  have hchannels := he.channels hprimary hi
  constructor
  · rw [hchannels]
    exact List.cons_ne_nil _ _
  · intro c hc
    rw [hchannels] at hc
    obtain rfl := List.mem_singleton.mp hc
    exact ⟨hpresent, hobs⟩
  · intro _
    rw [hprimary, hkind]
    exact (kindRow_foreign hk).symm
  · exact fun q hq hne => absurd (hnone q hq) hne
  · exact fun _ q hq hne => absurd (hnone q hq) hne
  · exact fun hne => absurd (hprimary.symm.trans hne) (Nat.ne_of_lt hi)
  · intro hcomplete
    rw [hincomplete] at hcomplete
    exact absurd hcomplete.symm Bool.false_ne_true

theorem openLone_skip (h : (r.channel i).present = false ∨ (r.channel i).entity ≠ none16 ∨
    (r.channel i).kind = kindCallObs) : openLone r i = r := by
  unfold openLone
  dsimp only
  rw [if_pos]
  simp only [Bool.or_eq_true, Bool.not_eq_true', decide_eq_true_eq, or_assoc]
  exact h

/-- A channel nobody claimed opens an entity of its own. -/
theorem openLone_opens (hsame : Same r r') (harena : Arena r)
    (hpresent : (r.channel i).present = true) (hobs : (r.channel i).kind ≠ kindCallObs)
    (hfree : (r'.channel i).entity = none16) (hlone : ¬Primary r i) (hi : i < none16)
    (hroom : r'.ent.length < none16) :
    ∃ e, Sound r e ∧ e.channels = [i] ∧ openLone r' i = push (r'.mark r'.ent.length [i], e) := by
  have hslot : r'.ent.length % 2 ^ 16 = r'.ent.length := Nat.mod_eq_of_lt (Nat.lt_succ_of_lt hroom)
  have hidx : i % 2 ^ 16 = i := Nat.mod_eq_of_lt (Nat.lt_succ_of_lt hi)
  unfold openLone
  dsimp only
  rw [hsame.kind, hsame.present, hsame.nameOff, hsame.nameLen, hslot, hidx, if_neg]
  swap
  · rw [hpresent, hfree, decide_eq_false hobs, decide_eq_false (not_not.mpr rfl)]
    exact Bool.false_ne_true
  have hat : ∀ off len, r'.nameAt off len = r.nameAt off len := hsame.nameAt
  by_cases hk : (r.channel i).kind < 8
  · have hrow : (kindRow (r.channel i).kind).primary = false :=
      Bool.eq_false_iff.mpr fun hrow => hlone ⟨hpresent, hk, hrow⟩
    have hattach : ∀ e, r'.attach e i r'.ent.length =
        (r'.mark r'.ent.length [i], attachTo e i (r.channel i).kind) := by
      intro e
      unfold attach
      rw [hsame.kind]
      rfl
    obtain ⟨hprimary, hincomplete, hchannels, hmem, hone⟩ := @attachTo_lone
      { kind := (kindRow (r.channel i).kind).entity, hash := (r'.channel i).hash, incomplete := true }
      i _ (Nat.ne_of_lt hi) hk hrow ⟨rfl, rfl, rfl⟩ rfl rfl
    rw [if_pos hk, if_pos ⟨hk, hrow⟩, hattach]
    cases hoff : (r.channel i).nameOff with
    | none =>
      refine ⟨_, Sound.lone hpresent hk hrow hprimary hchannels hmem hone hincomplete fun n hn => ?_, hchannels,
        rfl⟩
      unfold nameOf at hn
      rw [hoff] at hn
      exact absurd hn.symm (Option.some_ne_none n)
    | some off =>
      obtain ⟨hfit, hshort⟩ := harena i off hoff
      refine ⟨r'.setName _ off _, Sound.lone hpresent hk hrow hprimary hchannels hmem hone hincomplete fun n hn => ?_,
        hchannels, rfl⟩
      unfold nameOf at hn
      rw [hoff] at hn
      obtain rfl := Option.some.inj hn
      -- a name fits its byte, so its length is never cut
      have hname : ∀ len, len ≤ (r.channel i).nameLen → r.nameAt off (len % 2 ^ 8) = r.nameAt off len := by
        intro len hle
        rw [Nat.mod_eq_of_lt (Nat.lt_of_le_of_lt (hle.trans hshort) (by decide))]
      show _ = r.nameAt off (_ % 2 ^ 8) ++ _ ∨ _ ∧ _ = r.nameAt off (_ % 2 ^ 8)
      dsimp only
      rw [hat]
      by_cases hcarries : carries (r.nameAt off (r.channel i).nameLen) (kindRow (r.channel i).kind).suffix = true
      · have hsuffix : (kindRow (r.channel i).kind).suffix ≠ [] := by
          obtain h | h | h | h := loneKinds _ hk hrow <;> rw [h] <;> exact List.cons_ne_nil _ _
        refine Or.inl ?_
        rw [if_pos ⟨hk, hsuffix, hcarries⟩, hname _ (Nat.sub_le _ _)]
        exact nameAt_split hfit.le hcarries
      · refine Or.inr ⟨Bool.eq_false_iff.mpr hcarries, ?_⟩
        rw [if_neg fun h => hcarries h.2.2, hname _ (Nat.le_refl _)]
  · rw [if_neg hk, if_neg fun h => hk h.1]
    have hforeign := fun e : PeerEntity => @Sound.foreign r e i hpresent (Nat.le_of_not_lt hk) hobs
    cases hoff : (r.channel i).nameOff with
    | none =>
      exact ⟨_, hforeign _ ⟨rfl, rfl, rfl⟩ rfl hi rfl rfl, Single.channels ⟨rfl, rfl, rfl⟩ rfl hi, rfl⟩
    | some off =>
      exact ⟨_, hforeign _ ⟨rfl, rfl, rfl⟩ rfl hi rfl rfl, Single.channels ⟨rfl, rfl, rfl⟩ rfl hi, rfl⟩

/-- Where pass 2 is before channel `k`. -/
structure Pass2 (r r' : Reflect) (k : Nat) : Prop where
  same : Same r r'
  slotted : Slotted r'
  sound : ∀ e ∈ r'.ent, Sound r e
  primaries : ∀ i, Primary r i → (r'.channel i).entity ≠ none16
  done : ∀ i, i < k → (r.channel i).present = true → (r.channel i).kind ≠ kindCallObs →
    (r'.channel i).entity ≠ none16

/-- The next channel is claimed, is skipped or opens alone. -/
theorem Pass2.step (harena : Arena r) (hix : Indexed r) {k : Nat} (h : Pass2 r r' k) :
    Pass2 r (openLone r' k) (k + 1) := by
  by_cases hskip : (r'.channel k).present = false ∨ (r'.channel k).entity ≠ none16 ∨
      (r'.channel k).kind = kindCallObs
  · rw [openLone_skip hskip]
    refine ⟨h.same, h.slotted, h.sound, h.primaries, fun i hi hp hobs => ?_⟩
    obtain hi | rfl := Nat.lt_succ_iff_lt_or_eq.mp hi
    · exact h.done i hi hp hobs
    rw [h.same.present, h.same.kind] at hskip
    obtain habsent | hclaimed | hobs' := hskip
    · exact absurd (hp.symm.trans habsent) (by decide)
    · exact hclaimed
    · exact absurd hobs' hobs
  rw [not_or, not_or, not_not, Bool.not_eq_false, h.same.present, h.same.kind] at hskip
  obtain ⟨hpresent, hfree, hobs⟩ := hskip
  have hroom := h.slotted.room hix h.sound (hix k hpresent) hfree
  obtain ⟨e, he, hchannels, heq⟩ := openLone_opens h.same harena hpresent hobs hfree
    (fun hp => h.primaries k hp hfree) (hix k hpresent) hroom
  have hlt : ∀ c ∈ [k], c < r'.chan.length := fun c hc =>
    h.same.length.symm ▸ present_lt (List.mem_singleton.mp hc ▸ hpresent)
  rw [heq]
  refine ⟨push_same (h.same.trans (mark_same _ _ r')) e, h.slotted.push (fun c => by rw [hchannels]) ?_ hroom,
    fun e' he' => ?_, fun i hp => push_claimed hlt hroom e (Or.inr (h.primaries i hp)), fun i hi hp hobs => ?_⟩
  · intro c hc
    exact ⟨hlt c hc, List.mem_singleton.mp hc ▸ hfree⟩
  · have he' : e' ∈ (r'.mark r'.ent.length [k]).ent ++ [e] := he'
    rw [ent_mark] at he'
    obtain he' | he' := List.mem_append.mp he'
    · exact h.sound e' he'
    · exact List.mem_singleton.mp he' ▸ he
  · refine push_claimed hlt hroom e ?_
    obtain hi | rfl := Nat.lt_succ_iff_lt_or_eq.mp hi
    · exact Or.inr (h.done i hi hp hobs)
    · exact Or.inl List.mem_cons_self

end Reflect

end Rant.Node
