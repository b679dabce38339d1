import Rant.Serialize.Accept
import Rant.Serialize.Flat
import Rant.Serialize.Match
/-!
# Two types the subset rule calls equal

`typeCmp` reads two wires side by side. Where it agrees, the rows the two wires were
flattened to are twins: row for row of one kind, with the same counts, widths, members'
names and ranges (`spelled_twin`), and so of the same sizes (`twin_size`). The one thing
it lets differ below a type's own name is an enum's options.
-/

namespace Rant.Serialize

open Rant.Lib

/-- Two rows of one shape. -/
structure TwinRow (f g : Field) : Prop where
  kind : g.kind = f.kind
  strCap : f.kind = .str → g.strCap = f.strCap
  backing : f.kind = .enum → g.backing = f.backing
  count : f.kind.isArray = true → g.count = f.count

/-- The rows `[i, n)` of one table and those from `j` on of another are of one shape, and
their subtrees end at the same distance. -/
def TwinRows (T U : Nat → Field) (i n j : Nat) : Prop :=
  ∀ k, i + k < n → TwinRow (T (i + k)) (U (j + k)) ∧ (U (j + k)).next + i = (T (i + k)).next + j

/-- They bear the same names, from the row `lo` further on. -/
def TwinNames (T U : Nat → Field) (lo i n j : Nat) : Prop :=
  ∀ k, lo ≤ k → i + k < n → (U (j + k)).name = (T (i + k)).name

/-! ## Comparing tags -/

/-- A well formed tag is what the comparison reads first. -/
theorem typeTag_read {w : Bytes} {pos : Nat} {tn : Bytes} {k body : Nat}
    (h : typeTag w pos = some (tn, k, body)) :
    ∃ p, rdTypeName w pos = some (tn, p) ∧ rdU8 w p = some (k, body) := by
  simp only [typeTag, Option.bind_eq_bind] at h
  obtain ⟨⟨b, p₁⟩, h₁, h⟩ := Option.bind_eq_some_iff.mp h
  obtain ⟨e₁, -, e₃⟩ := rdU8_le h₁
  unfold rdTypeName
  dsimp only at h
  split at h
  next hb =>
    simp only [Option.some.injEq, Prod.mk.injEq] at h
    obtain ⟨rfl, rfl, rfl⟩ := h
    rw [if_neg (by rw [e₃]; exact fun hc => hb (Option.some.inj hc))]
    exact ⟨pos, rfl, h₁⟩
  next hb =>
    rw [ne_eq, Decidable.not_not] at hb
    subst hb
    obtain ⟨⟨nl, p₂⟩, h₂, h⟩ := Option.bind_eq_some_iff.mp h
    obtain ⟨p₃, h₃, h⟩ := Option.bind_eq_some_iff.mp h
    dsimp only at h₃ h
    split at h
    next => cases h
    obtain ⟨⟨k', p₄⟩, h₄, h⟩ := Option.bind_eq_some_iff.mp h
    dsimp only at h
    split at h
    next => cases h
    simp only [Option.some.injEq, Prod.mk.injEq] at h
    obtain ⟨rfl, rfl, rfl⟩ := h
    rw [if_pos e₃, ← e₁]
    simp only [Option.bind_eq_bind, h₂, Option.bind_some, h₃]
    exact ⟨p₃, rfl, h₄⟩

variable {wa wb : Bytes} {pa pb : Nat} {q : Nat × Nat}

/-- Past their tags, two types that compare equal are of one kind and their bodies
compare equal. -/
theorem typeCmp_body {room : Nat} {ta tb : Bytes} {ka kb ba bb : Nat}
    (h : typeCmp wa wb room pa pb = some q) (hta : typeTag wa pa = some (ta, ka, ba))
    (htb : typeTag wb pb = some (tb, kb, bb)) :
    ∃ room', ka = kb ∧ bodyCmp (typeCmp wa wb room') wa wb ka ba bb = some q := by
  cases room with
  | zero => cases h
  | succ room =>
    obtain ⟨p₁, hn₁, hk₁⟩ := typeTag_read hta
    obtain ⟨p₂, hn₂, hk₂⟩ := typeTag_read htb
    simp only [typeCmp, Option.bind_eq_bind, hn₁, hn₂, Option.bind_some] at h
    split at h
    next => cases h
    rw [hk₁, Option.bind_some, hk₂, Option.bind_some] at h
    dsimp only at h
    split at h
    next => cases h
    next hk =>
      rw [ne_eq, Decidable.not_not] at hk
      exact ⟨room, hk, h⟩

variable {pa' : Nat}

/-- Two bodies of one leaf kind that compare equal end where the two leaves do, and agree
in what their rows keep of them. -/
theorem bodyCmp_leaf {cmp : Nat → Nat → Option (Nat × Nat)} {k : Nat} {f g : Field} {pb' : Nat}
    (h : bodyCmp cmp wa wb k pa pb = some q) (hf : Kind.ofByte k = some f.kind)
    (hg : Kind.ofByte k = some g.kind) (hlf : LeafWire wa f pa pa')
    (hlg : LeafWire wb g pb pb') : q = (pa', pb') ∧ TwinRow f g := by
  have hkind : g.kind = f.kind := Option.some.inj (hg.symm.trans hf)
  have hnot : ∀ {k : Kind}, f.kind = k → (k = .arr ∨ k = .varr ∨ k = .struct ∨ k = .named) →
      False := by
    intro k' hk' hor
    unfold LeafWire at hlf
    rcases hor with rfl | rfl | rfl | rfl <;> rw [hk'] at hlf <;> exact hlf
  have hcount : f.kind.isArray = true → g.count = f.count := by
    intro hc
    rcases Kind.isArray_iff.mp hc with hk' | hk'
    · exact absurd (Or.inl rfl) (fun hor => hnot hk' hor)
    · exact absurd (Or.inr (Or.inl rfl)) (fun hor => hnot hk' hor)
  unfold bodyCmp at h
  unfold LeafWire at hlf hlg
  rw [hkind] at hlg
  rw [hf] at h
  by_cases hstr : f.kind = .str
  · rw [hstr] at h hlf hlg
    dsimp only at hlf hlg
    simp only [Option.bind_eq_bind, hlf, hlg, Option.bind_some] at h
    split at h
    next => cases h
    next hcap =>
      rw [ne_eq, Decidable.not_not] at hcap
      refine ⟨(Option.some.inj h).symm, hkind, fun _ => hcap.symm, fun hc => ?_, hcount⟩
      rw [hstr] at hc
      cases hc
  · by_cases henum : f.kind = .enum
    · rw [henum] at h hlf hlg
      dsimp only at hlf hlg
      obtain ⟨b, p₁, p₂, h₁, hb, h₂, h₃⟩ := hlf
      obtain ⟨b', p₁', p₂', h₁', hb', h₂', h₃'⟩ := hlg
      have hs : sizeOfByte b = f.backing.scalarSize := by
        unfold sizeOfByte
        rw [hb]
      have hs' : sizeOfByte b' = g.backing.scalarSize := by
        unfold sizeOfByte
        rw [hb']
      simp only [Option.bind_eq_bind, h₁, h₁', Option.bind_some, rdSkipEnum, h₂, h₂', hs, hs',
        h₃, h₃'] at h
      split at h
      next => cases h
      next hbb =>
        rw [ne_eq, Decidable.not_not] at hbb
        subst hbb
        exact ⟨(Option.some.inj h).symm, hkind, fun hc => absurd hc hstr,
          fun _ => Option.some.inj (hb'.symm.trans hb), hcount⟩
    · have hends : q = (pa, pb) := by
        split at h
        next hc => exact absurd (Option.some.inj hc) hstr
        next hc => exact absurd (Or.inl rfl) (hnot (Option.some.inj hc))
        next hc => exact absurd (Or.inr (Or.inl rfl)) (hnot (Option.some.inj hc))
        next => exact (Option.some.inj h).symm
        next => exact (Option.some.inj h).symm
        next hc => exact absurd (Option.some.inj hc) henum
        next hc => exact absurd (Or.inr (Or.inr (Or.inl rfl))) (hnot (Option.some.inj hc))
        next =>
          split at h
          next => exact (Option.some.inj h).symm
          next => cases h
      have hwire : pa' = pa ∧ pb' = pb := by
        split at hlf
        next hc => exact absurd hc hstr
        next hc => exact absurd hc henum
        next => exact absurd hlf id
        next => exact absurd hlf id
        next => exact absurd hlf id
        next => exact absurd hlf id
        next h1 h2 h3 h4 h5 h6 =>
          refine ⟨hlf, ?_⟩
          split at hlg
          next hc => exact absurd hc hstr
          next hc => exact absurd hc henum
          next hc => exact absurd hc h3
          next hc => exact absurd hc h4
          next hc => exact absurd hc h5
          next hc => exact absurd hc h6
          next => exact hlg
      rw [hwire.1, hwire.2]
      exact ⟨hends, hkind, fun hc => absurd hc hstr, fun hc => absurd hc henum, hcount⟩

/-! ## Comparing types -/

variable {T U : Nat → Field} {j : Nat}

/-- One row before a block of twins makes a longer block. -/
theorem twin_cons {i n m : Nat} (hlen : n + j = m + i) (hrow : TwinRow (T i) (U j))
    (hn : (T i).next = n) (hm : (U j).next = m)
    (h : TwinRows T U (i + 1) n (j + 1)) : TwinRows T U i n j := by
  intro k hk
  cases k with
  | zero => exact ⟨hrow, by rw [Nat.add_zero, Nat.add_zero]; omega⟩
  | succ k =>
    obtain ⟨h1, h2⟩ := h k (by omega)
    rw [show i + (k + 1) = i + 1 + k by omega, show j + (k + 1) = j + 1 + k by omega]
    exact ⟨h1, by omega⟩

theorem TwinRows.tail {i n : Nat} (h : TwinRows T U i n j) :
    TwinRows T U (i + 1) n (j + 1) := by
  intro k hk
  obtain ⟨h1, h2⟩ := h (k + 1) (by omega)
  rw [show i + (k + 1) = i + 1 + k by omega, show j + (k + 1) = j + 1 + k by omega] at h1 h2
  exact ⟨h1, by omega⟩

/-- Types that compare equal are of one kind, and what is behind their tags is compared. -/
theorem heads_cmp {i n m pb' body room : Nat} (ht : TagOk wa (T i) n pa body pa')
    (hB : Spelled wb U none j m pb pb') (hcmp : typeCmp wa wb room pa pb = some q) :
    ∃ room' tb body', typeTag wb pb = some (tb, (T i).kind.code, body') ∧
      (U j).kind = (T i).kind ∧ (U j).next = m ∧
        bodyCmp (typeCmp wa wb room') wa wb (T i).kind.code body body' = some q := by
  obtain ⟨k, htag, hk⟩ := ht.tag
  obtain ⟨body', ht'⟩ := hB.head
  obtain ⟨k', htag', hk'⟩ := ht'.tag
  obtain ⟨room', rfl, hbody⟩ := typeCmp_body hcmp htag htag'
  have hkind := Option.some.inj (hk'.symm.trans hk)
  obtain rfl := Kind.code_of_ofByte hk
  exact ⟨room', _, body', htag', hkind, ht'.next, hbody⟩

/-- Types that compare equal are spelled row for row. -/
theorem spelled_twin {mem : Option Nat} {i n : Nat}
    (h : Spelled wa T mem i n pa pa') : ∀ {room j m pb pb' : Nat} {q : Nat × Nat},
    Spelled wb U mem j m pb pb' →
    (match mem with
      | none => typeCmp wa wb room pa pb
      | some c => membersCmp (typeCmp wa wb room) wa wb c pa pb) = some q →
    q = (pa', pb') ∧ n + j = m + i ∧ TwinRows T U i n j ∧
      TwinNames T U (if mem = none then 1 else 0) i n j := by
  induction h with
  | @leaf i pa body pa' ht hl =>
    intro room j m pb pb' q hB hcmp
    obtain ⟨room', tb, body', htag, hkind, hnext, hbody⟩ := heads_cmp ht hB hcmp
    obtain ⟨rfl, -, hl'⟩ := hB.leaf_inv htag hl.kind.1 hl.kind.2
    obtain ⟨hq, hrow⟩ := bodyCmp_leaf hbody (Kind.ofByte_code _)
      (by rw [hkind]; exact Kind.ofByte_code _) hl hl'
    refine ⟨hq, by omega, fun c hc => ?_, fun c hlo hc => ?_⟩
    · obtain rfl : c = 0 := by omega
      refine ⟨hrow, ?_⟩
      rw [Nat.add_zero, Nat.add_zero, ht.next, hnext]
      omega
    · rw [if_pos rfl] at hlo
      omega
  | @array i n pa body epos pa' ht ha hname hrec ih =>
    intro room j m pb pb' q hB hcmp
    obtain ⟨room', tb, body', htag, hkind, hnext, hbody⟩ := heads_cmp ht hB hcmp
    obtain ⟨-, hname', epos', ha', hrec'⟩ := hB.array_inv htag ha.kind
    -- the counts agree and the elements compare equal
    have helem : (U j).count = (T i).count ∧ typeCmp wa wb room' epos epos' = some q := by
      unfold bodyCmp at hbody
      rw [Kind.ofByte_code] at hbody
      rcases ha with ⟨hc, hcount⟩ | ⟨hc, hcount, rfl⟩
      · rcases ha' with ⟨-, hcount'⟩ | ⟨hc', -⟩
        · rw [hc] at hbody
          simp only [Option.bind_eq_bind, hcount, hcount', Option.bind_some] at hbody
          split at hbody
          next => cases hbody
          next heq =>
            rw [ne_eq, Decidable.not_not] at heq
            exact ⟨heq.symm, hbody⟩
        · rw [hkind, hc] at hc'
          cases hc'
      · rcases ha' with ⟨hc', -⟩ | ⟨-, hcount', rfl⟩
        · rw [hkind, hc] at hc'
          cases hc'
        · rw [hc] at hbody
          exact ⟨hcount'.trans hcount.symm, hbody⟩
    obtain ⟨hcount, helem⟩ := helem
    obtain ⟨hq, hlen, hrows, hnames⟩ := ih hrec' helem
    rw [if_pos rfl] at hnames
    have hka : (T i).kind ≠ .str ∧ (T i).kind ≠ .enum := by
      rcases ha with ⟨hc, -⟩ | ⟨hc, -⟩ <;> rw [hc] <;>
        exact ⟨fun h => (by cases h), fun h => (by cases h)⟩
    refine ⟨hq, by omega, twin_cons (by omega) ?_ ht.next hnext hrows, fun c hlo hc => ?_⟩
    · exact ⟨hkind, fun hc => absurd hc hka.1, fun hc => absurd hc hka.2, fun _ => hcount⟩
    · rw [if_pos rfl] at hlo
      by_cases h1 : c = 1
      · rw [h1, hname, hname']
      · have := hnames (c - 1) (by omega) (by omega)
        rw [show i + 1 + (c - 1) = i + c by omega, show j + 1 + (c - 1) = j + c by omega] at this
        exact this
  | @struct i n pa body nf mpos pa' ht hs hnf hrec ih =>
    intro room j m pb pb' q hB hcmp
    obtain ⟨room', tb, body', htag, hkind, hnext, hbody⟩ := heads_cmp ht hB hcmp
    rw [hs] at htag hbody
    obtain ⟨-, nf', mpos', hnf', hrec'⟩ := hB.struct_inv htag
    unfold bodyCmp at hbody
    rw [Kind.ofByte_code] at hbody
    simp only [Option.bind_eq_bind, hnf, hnf', Option.bind_some] at hbody
    split at hbody
    next => cases hbody
    next heq =>
      rw [ne_eq, Decidable.not_not] at heq
      subst heq
      obtain ⟨hq, hlen, hrows, hnames⟩ := ih hrec' hbody
      rw [if_neg (fun hc => by cases hc)] at hnames
      refine ⟨hq, by omega, twin_cons (by omega) ?_ ht.next hnext hrows, fun c hlo hc => ?_⟩
      · refine ⟨hkind, fun hc => ?_, fun hc => ?_, fun hc => ?_⟩ <;> rw [hs] at hc <;> cases hc
      · rw [if_pos rfl] at hlo
        have := hnames (c - 1) (Nat.zero_le _) (by omega)
        rw [show i + 1 + (c - 1) = i + c by omega, show j + 1 + (c - 1) = j + c by omega] at this
        exact this
  | @nil i pos =>
    intro room j m pb pb' q hB hcmp
    cases hB with
    | nil =>
      refine ⟨(Option.some.inj hcmp).symm, by omega, fun k hk => by omega, fun k _ hk => by omega⟩
  | @cons i m n c nl pa p₁ p₂ p₃ pa' hnl hskip hname hfst hrest ih ih' =>
    intro room j o pb pb' q hB hcmp
    cases hB with
    | @cons _ mb _ _ nl' _ q₁ q₂ q₃ _ hnl' hskip' hname' hfst' hrest' =>
      simp only [membersCmp, Option.bind_eq_bind, hnl, hnl', Option.bind_some, hskip, hskip'] at hcmp
      split at hcmp
      next => cases hcmp
      next heq =>
        have hnn : nameAt wa p₁ nl = nameAt wb q₁ nl' := by
          by_cases hc : nameAt wa p₁ nl = nameAt wb q₁ nl'
          · exact hc
          · exact absurd (Or.inr hc) heq
        obtain ⟨⟨ra, rb⟩, hone, hrestc⟩ := Option.bind_eq_some_iff.mp hcmp
        obtain ⟨hq, hlen, hrows, hnames⟩ := ih hfst' hone
        simp only [Prod.mk.injEq] at hq
        obtain ⟨rfl, rfl⟩ := hq
        obtain ⟨hq', hlen', hrows', hnames'⟩ := ih' hrest' hrestc
        have hle := hfst.le
        rw [if_pos rfl] at hle hnames
        rw [if_neg (fun hc => by cases hc)] at hnames'
        refine ⟨hq', by omega, fun k hk => ?_, fun k _ hk => ?_⟩
        · by_cases hkm : i + k < m
          · exact hrows k hkm
          · obtain ⟨h1, h2⟩ := hrows' (i + k - m) (by omega)
            rw [show m + (i + k - m) = i + k by omega,
              show mb + (i + k - m) = j + k by omega] at h1 h2
            exact ⟨h1, by omega⟩
        · by_cases hk0 : k = 0
          · subst hk0
            rw [Nat.add_zero, Nat.add_zero, hname, hname', hnn]
          · by_cases hkm : i + k < m
            · exact hnames k (by omega) hkm
            · have := hnames' (i + k - m) (Nat.zero_le _) (by omega)
              rw [show m + (i + k - m) = i + k by omega,
                show mb + (i + k - m) = j + k by omega] at this
              exact this

/-! ## Twins are stored alike -/

/-- Twin leaves have the same size. -/
theorem twin_leaf {f g : Field} (h : TwinRow f g) (hf : LeafOk f) (hg : LeafOk g) :
    g.size = f.size ∧ g.var = f.var := by
  unfold LeafOk at hf hg
  rw [h.kind] at hg
  split at hf
  next hk =>
    rw [hk] at hg
    rw [hf.1, hg.1, h.strCap hk, hf.2, hg.2]
    exact ⟨rfl, rfl⟩
  next hk =>
    rw [hk] at hg
    rw [hf.1, hg.1, h.backing hk, hf.2.2, hg.2.2]
    exact ⟨rfl, rfl⟩
  next hk =>
    rw [hk] at hg
    rw [hf.1, hg.1, hf.2, hg.2]
    exact ⟨rfl, rfl⟩
  next hk =>
    rw [hk] at hg
    rw [hf.1, hg.1, hf.2, hg.2]
    exact ⟨rfl, rfl⟩
  next => exact absurd hf id
  next => exact absurd hf id
  next => exact absurd hf id
  next => exact absurd hf id
  next h1 h2 h3 h4 h5 h6 h7 h8 =>
    have hg' : g.size = f.kind.scalarSize ∧ g.var = false := by
      split at hg
      next hc => exact absurd hc h1
      next hc => exact absurd hc h2
      next hc => exact absurd hc h3
      next hc => exact absurd hc h4
      next hc => exact absurd hc h5
      next hc => exact absurd hc h6
      next hc => exact absurd hc h7
      next hc => exact absurd hc h8
      next => exact ⟨hg.1, hg.2⟩
    rw [hf.1, hf.2, hg'.1, hg'.2]
    exact ⟨rfl, rfl⟩

/-- Twin blocks have the same size and variability. -/
theorem twin_size {mem : Bool} {i n d : Nat} {p : Option Nat} {base size : Nat} {var : Bool}
    (h : Laid T mem i n d p base size var) :
    ∀ {j m d' base' size' : Nat} {p' : Option Nat} {var' : Bool},
      Laid U mem j m d' p' base' size' var' → n + j = m + i → TwinRows T U i n j →
      size' = size ∧ var' = var := by
  induction h with
  | @leaf i d p base size var hh hl =>
    intro j m d' base' size' p' var' hB hlen htw
    have hrow : TwinRow (T i) (U j) := (htw 0 (by omega)).1
    rcases hB.row with ⟨-, hl'⟩ | ⟨-, -, hk, -, -⟩ | ⟨hk, -⟩
    · have hh' := hB.head
      rw [← hh.size, ← hh.var, ← hh'.size, ← hh'.var]
      exact twin_leaf hrow hl hl'
    · rw [hrow.kind] at hk
      exact Bool.noConfusion (hl.kind.2.symm.trans hk)
    · exact absurd (hrow.kind.symm.trans hk) hl.kind.1
  | @array i n d p base size var esize evar hh hk hok hrec ih =>
    intro j m d' base' size' p' var' hB hlen htw
    have hle := hrec.le
    have hrow : TwinRow (T i) (U j) := (htw 0 (by simp at hle; omega)).1
    rcases hB.row with ⟨-, hl'⟩ | ⟨esize', evar', hk', hok', hrec'⟩ | ⟨hk', -⟩
    · rw [← hrow.kind] at hk
      exact Bool.noConfusion (hl'.kind.2.symm.trans hk)
    · have hh' := hB.head
      obtain ⟨rfl, rfl⟩ := ih hrec' (by omega) htw.tail
      have hvar : (U j).var = (T i).var := by
        rw [hok.var, hok'.var, hrow.kind]
      refine ⟨?_, hh'.var.symm.trans (hvar.trans hh.var)⟩
      rw [← hh.size, ← hh'.size]
      cases hv : (T i).var with
      | true => rw [hok.size_var hv, hok'.size_var (hvar.trans hv)]
      | false =>
        have hev : esize' = esize' ∧ evar' = false ∧ (T i).kind = .arr := by
          have := hok.var
          rw [hv] at this
          simp only [Bool.false_eq, Bool.or_eq_false_iff, decide_eq_false_iff_not] at this
          rcases Kind.isArray_iff.mp hk with hc | hc
          · exact ⟨rfl, this.2, hc⟩
          · exact absurd hc this.1
        rw [hok.fixed hev.2.2 hev.2.1, hok'.fixed (hrow.kind.trans hev.2.2) hev.2.1, hrow.count hk]
    · rw [hrow.kind] at hk'
      rw [hk'] at hk
      cases hk
  | @struct i n d p base size var hh hk hrec ih =>
    intro j m d' base' size' p' var' hB hlen htw
    have hle := hrec.le
    have hrow : TwinRow (T i) (U j) := (htw 0 (by simp at hle; omega)).1
    rcases hB.row with ⟨-, hl'⟩ | ⟨-, -, hk', -, -⟩ | ⟨-, hrec'⟩
    · exact absurd (hrow.kind.trans hk) hl'.kind.1
    · rw [hrow.kind, hk] at hk'
      cases hk'
    · exact ih hrec' (by omega) htw.tail
  | @nil i d p base =>
    intro j m d' base' size' p' var' hB hlen _
    obtain rfl : m = j := by omega
    cases hB with
    | nil => exact ⟨rfl, rfl⟩
    | cons hfst hrest =>
      have h1 := hfst.le
      have h2 := hrest.le
      simp only [Bool.false_eq_true, if_false, if_true] at h1 h2
      omega
  | @cons i m n d p base size size' var var' hfst hrest ih ih' =>
    intro j o d' base' size'' p' var'' hB hlen htw
    have hle := hfst.le
    have hle' := hrest.le
    simp only [Bool.false_eq_true, if_false, if_true] at hle hle'
    have hone := htw 0 (by omega)
    rw [Nat.add_zero, Nat.add_zero, hfst.head.next] at hone
    cases hB with
    | nil => omega
    | @cons _ mb _ _ _ _ sz sz' v v' hfst' hrest' =>
      rw [hfst'.head.next] at hone
      obtain ⟨rfl, rfl⟩ := ih hfst' (by omega) fun k hk => htw k (by omega)
      obtain ⟨rfl, rfl⟩ := ih' hrest' (by omega) fun k hk => by
        obtain ⟨h1, h2⟩ := htw (m - i + k) (by omega)
        rw [show i + (m - i + k) = m + k by omega, show j + (m - i + k) = mb + k by omega] at h1 h2
        exact ⟨h1, by omega⟩
      exact ⟨rfl, rfl⟩

end Rant.Serialize
