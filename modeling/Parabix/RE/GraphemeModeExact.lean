import Parabix.RE.GraphemeMode
import Parabix.RE.ExactCode

namespace Parabix

open Library Library.Powers Library.Spans UCD

namespace ModedRE

open RE.GraphemeMode

/-- The sets of the classes are well formed, and the bounds of the repetitions are in order. -/
inductive Valid : ModedRE → Prop
  | cc {c : RE.CC} (h : c.set.WellFormed) : Valid (cc c)
  | range (node : ℕ) : Valid (range node)
  | any : Valid any
  | dot : Valid dot
  | seq {elems : List ModedRE} (h : ∀ e ∈ elems, Valid e) : Valid (seq elems)
  | alt {elems : List ModedRE} (h : ∀ e ∈ elems, Valid e) : Valid (alt elems)
  | rep {re : ModedRE} {lb ub : ℤ} (h : Valid re) (hb : RE.Bounds lb ub) : Valid (rep re lb ub)
  | group {re : ModedRE} (on : Bool) (h : Valid re) : Valid (group on re)

/-- No class and no alternation is empty, and nothing is repeated zero times at most. -/
inductive Proper : ModedRE → Prop
  | cc {c : RE.CC} (h : c.set.members.Nonempty) : Proper (cc c)
  | range (node : ℕ) : Proper (range node)
  | any : Proper any
  | dot : Proper dot
  | seq {elems : List ModedRE} (h : ∀ e ∈ elems, Proper e) : Proper (seq elems)
  | alt {elems : List ModedRE} (hne : elems ≠ []) (h : ∀ e ∈ elems, Proper e) :
      Proper (alt elems)
  | rep {re : ModedRE} {lb ub : ℤ} (h : Proper re) (hub : ub ≠ 0) : Proper (rep re lb ub)
  | group {re : ModedRE} (on : Bool) (h : Proper re) : Proper (group on re)

mutual

/-- The expression may be matched without a character. -/
def passes : ModedRE → Bool
  | cc _ => false
  | range _ => false
  | any => false
  | dot => false
  | seq elems => passesAll elems
  | alt elems => passesAny elems
  | rep re lb _ => lb ≤ 0 || passes re
  | group _ re => passes re

def passesAll : List ModedRE → Bool
  | [] => true
  | e :: elems => passes e && passesAll elems

def passesAny : List ModedRE → Bool
  | [] => false
  | e :: elems => passes e || passesAny elems

end

/-- A class of a sequence has no boundary of its own. One character waits for the end of its run. -/
def openItem (mode : Bool) (i : ModedRE) (opened : Prop) : Prop :=
  match i with
  | cc c => c.set.members.Nonempty ∧ ¬ (mode = true ∧ c.set.count = 1)
  | _ => opened

mutual

/-- The last character may be matched without a boundary after it: it is an item of a sequence that
is a class of several characters, it is any character, or the mode is off. No repetition of
a repetition may become one without an upper bound. -/
def endsOpen (mode : Bool) : ModedRE → Prop
  | cc c => mode = false ∧ c.set.members.Nonempty
  | range _ => mode = false
  | any => True
  | dot => mode = false
  | seq elems => endsOpenSeq mode elems
  | alt elems => endsOpenAny mode elems
  | rep re _ ub => endsOpen mode re ∨ ub = 0
  | group on re => endsOpen on re

def endsOpenAny (mode : Bool) : List ModedRE → Prop
  | [] => False
  | e :: elems => endsOpen mode e ∨ endsOpenAny mode elems

def endsOpenSeq (mode : Bool) : List ModedRE → Prop
  | [] => False
  | i :: items =>
    endsOpenSeq mode items ∨ openItem mode i (endsOpen mode i) ∧ passesAll items = true

end

end ModedRE

namespace RE.GraphemeMode

section Realized

/-- What is matched, given the text and its boundaries. -/
abbrev Family := List ℕ → (ℕ → Prop) → Span

/-- The word stands in the text at `p`. -/
def Occurs (w text : List ℕ) (p : ℕ) : Prop := ∀ i < w.length, text[p + i]? = w[i]?

/-- The word is matched wherever it stands with all the boundaries. -/
def MatchesWord (x : Family) (w : List ℕ) : Prop :=
  ∀ text boundary p, Occurs w text p → (∀ q, p ≤ q → q ≤ p + w.length → boundary q) →
    x text boundary p (p + w.length)

/-- The word is matched even if there is no boundary after it. -/
def MatchesOpen (x : Family) (w : List ℕ) : Prop :=
  ∀ text boundary p, Occurs w text p → (∀ q, p ≤ q → q < p + w.length → boundary q) →
    x text boundary p (p + w.length)

/-- Something is matched, and the ends that should be possible are. -/
structure Realized (passed : Bool) (opened : Prop) (x : Family) : Prop where
  some : ∃ w, MatchesWord x w
  pass : passed = true → ∀ text boundary p, x text boundary p p
  opens : opened → ∃ w, w ≠ [] ∧ MatchesOpen x w

theorem MatchesOpen.matchesWord {x : Family} {w : List ℕ} (h : MatchesOpen x w) :
    MatchesWord x w :=
  fun text boundary p hw hb ↦ h text boundary p hw fun q h1 h2 ↦ hb q h1 h2.le

variable {v w text : List ℕ} {p : ℕ} {x y : Family} {e e' : Bool} {o o' : Prop}

theorem occurs_append : Occurs (v ++ w) text p ↔
    Occurs v text p ∧ Occurs w text (p + v.length) := by
  constructor
  · intro h
    constructor
    · intro i hi
      rw [h i (by rw [List.length_append]; omega), List.getElem?_append_left hi]
    · intro i hi
      have := h (v.length + i) (by rw [List.length_append]; omega)
      rwa [List.getElem?_append_right (by omega), Nat.add_sub_cancel_left, ← Nat.add_assoc] at this
  · rintro ⟨hv, hw⟩ i hi
    rw [List.length_append] at hi
    by_cases hlt : i < v.length
    · rw [hv i hlt, List.getElem?_append_left hlt]
    · have := hw (i - v.length) (by omega)
      rwa [show p + v.length + (i - v.length) = p + i by omega,
        ← List.getElem?_append_right (by omega)] at this

theorem MatchesWord.mul (hx : MatchesWord x v) (hy : MatchesWord y w) :
    MatchesWord (fun text boundary ↦ x text boundary * y text boundary) (v ++ w) := by
  intro text boundary p hocc hb
  obtain ⟨hv, hw⟩ := occurs_append.1 hocc
  rw [List.length_append] at hb ⊢
  refine ⟨p + v.length, hx text boundary p hv fun q h1 h2 ↦ hb q h1 (by omega), ?_⟩
  have hmatch := hy text boundary (p + v.length) hw fun q h1 h2 ↦ hb q (by omega) (by omega)
  rwa [Nat.add_assoc] at hmatch

theorem MatchesWord.mul_open (hx : MatchesWord x v) (hy : MatchesOpen y w) (hne : w ≠ []) :
    MatchesOpen (fun text boundary ↦ x text boundary * y text boundary) (v ++ w) := by
  intro text boundary p hocc hb
  obtain ⟨hv, hw⟩ := occurs_append.1 hocc
  have hpos := List.length_pos_iff.2 hne
  rw [List.length_append] at hb ⊢
  refine ⟨p + v.length, hx text boundary p hv fun q h1 h2 ↦ hb q h1 (by omega), ?_⟩
  have hmatch := hy text boundary (p + v.length) hw fun q h1 h2 ↦ hb q (by omega) (by omega)
  rwa [Nat.add_assoc] at hmatch

theorem Realized.mul (hx : Realized e o x) (hy : Realized e' o' y) :
    Realized (e && e') (o' ∨ o ∧ e' = true)
      (fun text boundary ↦ x text boundary * y text boundary) := by
  obtain ⟨v, hv⟩ := hx.some
  obtain ⟨w, hw⟩ := hy.some
  refine ⟨⟨v ++ w, hv.mul hw⟩, ?_, ?_⟩
  · intro h text boundary p
    rw [Bool.and_eq_true] at h
    exact ⟨p, hx.pass h.1 text boundary p, hy.pass h.2 text boundary p⟩
  · rintro (ho' | ⟨ho, he'⟩)
    · obtain ⟨u, hne, hu⟩ := hy.opens ho'
      exact ⟨v ++ u, by simp [hne], hv.mul_open hu hne⟩
    · obtain ⟨u, hne, hu⟩ := hx.opens ho
      refine ⟨u, hne, fun text boundary p hocc hb ↦ ?_⟩
      exact ⟨p + u.length, hu text boundary p hocc hb, hy.pass he' text boundary _⟩

theorem realized_one : Realized true False fun _ _ ↦ 1 :=
  ⟨⟨[], fun _ _ _ _ _ ↦ rfl⟩, fun _ _ _ _ ↦ rfl, False.elim⟩

theorem Realized.sup_left (hx : Realized e o x) (hy : e' = true ∨ o' → Realized e' o' y) :
    Realized (e || e') (o ∨ o') (fun text boundary ↦ x text boundary ⊔ y text boundary) := by
  obtain ⟨v, hv⟩ := hx.some
  refine ⟨⟨v, fun text boundary p hocc hb ↦ .inl (hv text boundary p hocc hb)⟩, ?_, ?_⟩
  · intro h text boundary p
    obtain he | he' := Bool.or_eq_true_iff.1 h
    · exact .inl (hx.pass he text boundary p)
    · exact .inr ((hy (.inl he')).pass he' text boundary p)
  · rintro (ho | ho')
    · obtain ⟨w, hne, hw⟩ := hx.opens ho
      exact ⟨w, hne, fun text boundary p hocc hb ↦ .inl (hw text boundary p hocc hb)⟩
    · obtain ⟨w, hne, hw⟩ := (hy (.inr ho')).opens ho'
      exact ⟨w, hne, fun text boundary p hocc hb ↦ .inr (hw text boundary p hocc hb)⟩

theorem Realized.pow (hx : Realized e o x) (n : ℕ) :
    Realized (decide (n = 0) || e) (n ≠ 0 ∧ o) (fun text boundary ↦ x text boundary ^ n) := by
  induction n with
  | zero =>
    refine ⟨realized_one.some, fun _ ↦ realized_one.pass rfl, fun h ↦ absurd rfl h.1⟩
  | succ n ih =>
    have hmul := ih.mul hx
    have heq : (fun text boundary ↦ x text boundary ^ (n + 1)) =
        fun text boundary ↦ x text boundary ^ n * x text boundary :=
      funext fun text ↦ funext fun boundary ↦ pow_succ _ n
    rw [heq]
    refine ⟨hmul.some, fun h ↦ hmul.pass ?_, fun h ↦ hmul.opens (.inl h.2)⟩
    have he : e = true := by simpa using h
    rw [he, Bool.or_true]
    rfl

theorem Realized.powers (hx : Realized e o x) {lb ub : ℤ} (hb : Bounds lb ub) (hub : ub ≠ 0) :
    Realized (decide (lb ≤ 0) || e) o
      (fun text boundary ↦ powers (x text boundary) (counts lb ub)) := by
  obtain ⟨a, rfl, hcases⟩ := hb.cases
  have hmem (n : ℕ) (h1 : a ≤ n) (h2 : n ≤ max a 1) : n ∈ counts a ub := by
    refine ⟨by exact_mod_cast h1, ?_⟩
    obtain rfl | ⟨b, rfl, hle⟩ := hcases
    · exact .inl rfl
    · refine .inr ?_
      have hpos : b ≠ 0 := by exact_mod_cast hub
      have : n ≤ b := by omega
      exact_mod_cast this
  have hin (n : ℕ) (h1 : a ≤ n) (h2 : n ≤ max a 1) (text : List ℕ) (boundary : ℕ → Prop)
      (p q : ℕ) (h : (x text boundary ^ n) p q) :
      Powers.powers (x text boundary) (counts a ub) p q :=
    powers_apply.2 ⟨n, hmem n h1 h2, h⟩
  refine ⟨?_, ?_, ?_⟩
  · obtain ⟨w, hw⟩ := (hx.pow a).some
    exact ⟨w, fun text boundary p hocc hb' ↦
      hin a (Nat.le_refl a) (Nat.le_max_left a 1) _ _ _ _ (hw text boundary p hocc hb')⟩
  · intro h text boundary p
    refine hin a (Nat.le_refl a) (Nat.le_max_left a 1) _ _ _ _ ((hx.pow a).pass ?_ text boundary p)
    simpa using h
  · intro ho
    obtain ⟨w, hne, hw⟩ := (hx.pow (max a 1)).opens ⟨by omega, ho⟩
    exact ⟨w, hne, fun text boundary p hocc hb' ↦
      hin (max a 1) (Nat.le_max_left a 1) (Nat.le_refl _) _ _ _ _ (hw text boundary p hocc hb')⟩

end Realized

section Follows

/-- What an expression matches in a text whose characters are in all ranges. -/
abbrev matched (r : RE) : Family :=
  fun text boundary ↦ denote (graphemeMeaning text (fun _ _ ↦ True) boundary) r

/-- The matches end as is said, and if nothing is degenerate, all these ends are possible. -/
structure Follows (r : RE) (proper : Prop) (passed : Bool) (opened : Prop) : Prop where
  valid : r.Valid
  ends : ∀ text property boundary,
    Ends boundary (passed = true) opened (denote (graphemeMeaning text property boundary) r)
  realized : proper → Realized passed opened (matched r)

structure FollowsSeq (list : List RE) (proper : Prop) (passed : Bool) (opened : Prop) : Prop where
  valid : ∀ r ∈ list, r.Valid
  ends : ∀ text property boundary,
    Ends boundary (passed = true) opened (denoteSeq (graphemeMeaning text property boundary) list)
  realized : proper → Realized passed opened fun text boundary ↦
    denoteSeq (graphemeMeaning text (fun _ _ ↦ True) boundary) list

structure FollowsAlt (list : List RE) (proper : Prop) (passed : Bool) (opened : Prop) : Prop where
  valid : ∀ r ∈ list, r.Valid
  ends : ∀ text property boundary,
    Ends boundary (passed = true) opened (denoteAlt (graphemeMeaning text property boundary) list)
  realized : proper → list ≠ [] → Realized passed opened fun text boundary ↦
    denoteAlt (graphemeMeaning text (fun _ _ ↦ True) boundary) list

variable {r : RE} {list : List RE} {P P' : Prop} {e e' : Bool} {o o' : Prop} {c : CC}

theorem Follows.congr (h : Follows r P e o) (hP : P' → P) (he : e = e') (ho : o ↔ o') :
    Follows r P' e' o' := by
  subst he
  rw [propext ho] at h
  exact ⟨h.valid, h.ends, fun hp ↦ h.realized (hP hp)⟩

theorem FollowsAlt.congr (h : FollowsAlt list P e o) (hP : P' → P) (he : e = e') (ho : o ↔ o') :
    FollowsAlt list P' e' o' := by
  subst he
  rw [propext ho] at h
  exact ⟨h.valid, h.ends, fun hp ↦ h.realized (hP hp)⟩

theorem FollowsSeq.congr (h : FollowsSeq list P e o) (hP : P' → P) (he : e = e') (ho : o ↔ o') :
    FollowsSeq list P' e' o' := by
  subst he
  rw [propext ho] at h
  exact ⟨h.valid, h.ends, fun hp ↦ h.realized (hP hp)⟩

/-- A character that stands in the text is matched. -/
theorem realized_step {A : List ℕ → ℕ → Prop} (h : o → ∃ c, ∀ text p, text[p]? = some c → A text p)
    (ho : o) : Realized false o fun text _ ↦ step (A text) := by
  obtain ⟨c, hc⟩ := h ho
  have hopen : MatchesOpen (fun text _ ↦ step (A text)) [c] := by
    intro text boundary p hocc _
    exact ⟨rfl, hc text p (hocc 0 Nat.one_pos)⟩
  exact ⟨⟨[c], hopen.matchesWord⟩, fun h ↦ absurd h Bool.false_ne_true,
    fun _ ↦ ⟨[c], List.cons_ne_nil c [], hopen⟩⟩

theorem follows_cc (hc : c.set.WellFormed) :
    Follows (cc c) c.set.members.Nonempty false c.set.members.Nonempty where
  valid := .cc hc
  ends text property boundary := by
    rw [denote]
    obtain hempty | hne := c.set.members.eq_empty_or_nonempty
    · rw [hempty, Meaning.cc_empty]
      exact ends_bot
    · exact ends_step hne
  realized hne := realized_step (fun hne ↦ by
    obtain ⟨x, hx⟩ := hne
    exact ⟨x, fun text p h ↦ ⟨x, h, hx⟩⟩) hne

theorem follows_any : Follows any True false True where
  valid := .any
  ends _ _ _ := ends_step trivial
  realized _ := realized_step
    (fun _ ↦ ⟨0, fun _ _ h ↦ (List.getElem?_eq_some_iff.1 h).1⟩) trivial

theorem follows_rangeNode (node : ℕ) : Follows (rangeNode node) True false True where
  valid := .other _
  ends _ _ _ := ends_step trivial
  realized _ := realized_step (fun _ ↦ ⟨0, fun _ _ h ↦ ⟨0, h, trivial⟩⟩) trivial

theorem follows_GCB : Follows GCB True false False where
  valid := .other 0
  ends _ _ _ := ends_zeroWidth
  realized _ := ⟨⟨[], fun _ _ p _ hb ↦ ⟨rfl, hb p (Nat.le_refl p) (Nat.le_refl p)⟩⟩,
    fun h ↦ absurd h Bool.false_ne_true, False.elim⟩

theorem follows_name (n : String) (h : Follows r P e o) : Follows (name n r) P e o :=
  ⟨.name n h.valid, h.ends, h.realized⟩

theorem followsSeq_nil : FollowsSeq [] True true False :=
  ⟨List.forall_mem_nil _, fun _ _ _ ↦ ends_one rfl, fun _ ↦ realized_one⟩

theorem Follows.cons (h : Follows r P e o) (h' : FollowsSeq list P' e' o') :
    FollowsSeq (r :: list) (P ∧ P') (e && e') (o' ∨ o ∧ e' = true) where
  valid := List.forall_mem_cons.2 ⟨h.valid, h'.valid⟩
  ends text property boundary := by
    rw [denoteSeq, Bool.and_eq_true]
    exact (h.ends text property boundary).mul (h'.ends text property boundary)
  realized hP := (h.realized hP.1).mul (h'.realized hP.2)

theorem FollowsSeq.seq (h : FollowsSeq list P e o) : Follows (seq list) P e o :=
  ⟨.seq h.valid, h.ends, h.realized⟩

theorem FollowsSeq.makeSeq (h : FollowsSeq list P e o) : Follows (makeSeq list) P e o where
  valid := valid_makeSeq h.valid
  ends text property boundary := by
    rw [denote_makeSeq h.valid]
    exact h.ends text property boundary
  realized hP := by
    have heq : matched (RE.makeSeq list) = matched (RE.seq list) :=
      funext fun text ↦ funext fun boundary ↦ denote_makeSeq h.valid
    rw [heq]
    exact h.realized hP

theorem followsAlt_nil : FollowsAlt [] P false False :=
  ⟨List.forall_mem_nil _, fun _ _ _ ↦ ends_bot, fun _ h ↦ absurd rfl h⟩

theorem Follows.consAlt (h : Follows r P e o) (h' : FollowsAlt list P' e' o')
    (hnil : list = [] → e' = false ∧ ¬ o') :
    FollowsAlt (r :: list) (P ∧ P') (e || e') (o ∨ o') where
  valid := List.forall_mem_cons.2 ⟨h.valid, h'.valid⟩
  ends text property boundary := by
    rw [denoteAlt, Bool.or_eq_true]
    exact (h.ends text property boundary).sup (h'.ends text property boundary)
  realized hP _ := by
    refine (h.realized hP.1).sup_left fun hor ↦ h'.realized hP.2 fun hempty ↦ ?_
    obtain ⟨he', ho'⟩ := hnil hempty
    obtain he | ho := hor
    · rw [he'] at he
      cases he
    · exact ho' ho

theorem FollowsAlt.alt (h : FollowsAlt list P e o) (hne : P → list ≠ []) :
    Follows (alt list) P e o :=
  ⟨.alt h.valid, h.ends, fun hP ↦ h.realized hP (hne hP)⟩

theorem FollowsAlt.makeAlt (h : FollowsAlt list P e o) (hne : P → list ≠ [])
    (hr : makeAlt list = .ok r) : Follows r P e o where
  valid := (makeAlt_returns (M := words) h.valid hr).1
  ends text property boundary := by
    rw [(makeAlt_returns h.valid hr).2]
    exact h.ends text property boundary
  realized hP := by
    have heq : matched r = matched (RE.alt list) :=
      funext fun text ↦ funext fun boundary ↦ (makeAlt_returns h.valid hr).2
    rw [heq]
    exact h.realized hP (hne hP)

theorem Follows.rep {lb ub : ℤ} (h : Follows r P e o) (hb : Bounds lb ub) :
    Follows (rep r lb ub) (P ∧ ub ≠ 0) (decide (lb ≤ 0) || e) (o ∨ ub = 0) where
  valid := .rep h.valid hb
  ends text property boundary := by
    rw [denote]
    refine (h.ends text property boundary).powers.mono le_rfl (fun hor ↦ ?_) .inl
    rw [Bool.or_eq_true, decide_eq_true_eq]
    exact hor
  realized hP := by
    have hpowers := (h.realized hP.1).powers hb hP.2
    refine ⟨hpowers.some, hpowers.pass, fun hor ↦ hpowers.opens (hor.resolve_right hP.2)⟩

/-- The constructor may lose the empty match of the empty set, or repeat what it should not. -/
theorem Follows.makeRep {x : RE} {lb ub : ℤ} (h : Follows r P e o) (hb : Bounds lb ub)
    (hx : makeRep r lb ub = .ok x) :
    Follows x (P ∧ ub ≠ 0) (decide (lb ≤ 0) || e) (o ∨ ub = 0) where
  valid := (makeRep_returns (M := words) h.valid hb hx).1
  ends text property boundary := by
    obtain ⟨hvalid, hcases⟩ :=
      makeRep_returns (M := graphemeMeaning text property boundary) h.valid hb hx
    obtain ⟨hset, -, rfl⟩ | ⟨-, hlb, hub⟩ | hdenote := hcases
    · rw [denote_emptySet hvalid hset]
      exact ends_bot
    · intro p q hpq
      have hle : p ≤ q := denote_le_forward hvalid p q hpq
      obtain heq | hlt := Nat.eq_or_lt_of_le hle
      · exact .inl ⟨heq, by rw [hlb]; rfl⟩
      · exact .inr (.inl ⟨hlt, .inr hub⟩)
    · rw [hdenote]
      exact (h.rep hb).ends text property boundary
  realized hP := by
    have heq : matched x = matched (RE.rep r lb ub) := by
      funext text boundary
      obtain ⟨-, hcases⟩ :=
        makeRep_returns (M := graphemeMeaning text (fun _ _ ↦ True) boundary) h.valid hb hx
      obtain ⟨hset, -, -⟩ | ⟨-, -, hub⟩ | hdenote := hcases
      · -- What is repeated is matched somewhere.
        obtain ⟨w, hw⟩ := (h.realized hP.1).some
        have hmatch := hw w (fun _ ↦ True) 0 (fun i _ ↦ by rw [Nat.zero_add])
          fun _ _ _ ↦ trivial
        rw [matched, denote_emptySet h.valid hset] at hmatch
        exact absurd hmatch id
      · exact absurd hub hP.2
      · exact hdenote
    rw [heq]
    exact (h.rep hb).realized hP

/-- The loop for `.` is closed by a boundary. -/
theorem follows_transformDot : ∃ r, transformDot = .ok r ∧ Follows r True false False := by
  have hnot : (diff (seq []) GCB).Valid := .diff (.seq (List.forall_mem_nil _)) follows_GCB.valid
  have hvalid : (rep (seq [diff (seq []) GCB, any]) 0 UNBOUNDED_REP).Valid := by
    refine .rep (.seq ?_) (bounds_unbounded (by decide) (by decide))
    exact List.forall_mem_cons.2 ⟨hnot, List.forall_mem_cons.2 ⟨.any, List.forall_mem_nil _⟩⟩
  have hloop : Follows (rep (seq [diff (seq []) GCB, any]) 0 UNBOUNDED_REP) False true True := by
    refine ⟨hvalid, fun text property boundary p q hpq ↦ ?_, False.elim⟩
    obtain heq | hlt := Nat.eq_or_lt_of_le (denote_le_forward hvalid p q hpq)
    · exact .inl ⟨heq, rfl⟩
    · exact .inr (.inl ⟨hlt, trivial⟩)
  have hends := follows_any.cons (hloop.cons (follows_GCB.cons followsSeq_nil))
  refine ⟨_, rfl, .seq hends.valid, fun text property boundary ↦ ?_, fun _ ↦ ?_⟩
  · refine (hends.ends text property boundary).mono le_rfl ?_ ?_
    · simp
    · simp
  · refine ⟨⟨[0], fun text boundary p hocc hb ↦ ?_⟩, fun h ↦ absurd h Bool.false_ne_true,
      False.elim⟩
    have hlt : p < text.length := (List.getElem?_eq_some_iff.1 (hocc 0 Nat.one_pos)).1
    refine ⟨p + 1, ⟨rfl, hlt⟩, p + 1, powers_apply.2 ⟨0, ⟨Int.le_refl 0, .inl rfl⟩, rfl⟩, p + 1,
      ⟨rfl, ?_⟩, rfl⟩
    exact hb (p + 1) (Nat.le_succ p) (Nat.le_refl _)

end Follows

section Transform

open ModedRE

theorem transformItem_eq {i : ModedRE} {t : Except Fault (RE × Bool)}
    (h : ∀ c, i ≠ .cc c) : transformItem i t = t := by
  cases i with
  | cc c => exact absurd rfl (h c)
  | _ => rfl

theorem openItem_eq {mode : Bool} {i : ModedRE} {o : Prop} (h : ∀ c, i ≠ .cc c) :
    openItem mode i o = o := by
  cases i with
  | cc c => exact absurd rfl (h c)
  | _ => rfl

theorem atSingleChar_eq_false {i : ModedRE} (h : ∀ c, i ≠ .cc c) : atSingleChar i = false := by
  cases i with
  | cc c => exact absurd rfl (h c)
  | _ => rfl

theorem isCC_or (i : ModedRE) : (∃ c, i = .cc c) ∨ ∀ c, i ≠ .cc c := by
  cases i with
  | cc c => exact .inl ⟨c, rfl⟩
  | _ => exact .inr fun _ h ↦ by cases h

variable {mode after changed : Bool} {r : RE} {list : List RE}

/-- One turn of the loop over the items of a sequence. -/
theorem transformSeq_cons {i : ModedRE} {items : List ModedRE} (hv : i.Valid)
    (hi : ∀ t c, transform mode i = .ok (t, c) → Follows t i.Proper i.passes (i.endsOpen mode))
    (hitems : ∀ list c, transformSeq mode (atSingleChar i) items = .ok (list, c) →
      FollowsSeq list (∀ e ∈ items, e.Proper) (passesAll items && !(atSingleChar i && mode))
        (endsOpenSeq mode items))
    (h : transformSeq mode after (i :: items) = .ok (list, changed)) :
    FollowsSeq list (∀ e ∈ i :: items, e.Proper)
      (passesAll (i :: items) && !(after && mode)) (endsOpenSeq mode (i :: items)) := by
  rw [transformSeq] at h
  obtain ⟨⟨t, c⟩, ht, h⟩ := bind_eq_ok.1 h
  obtain ⟨⟨rest, c'⟩, hrest, h⟩ := bind_eq_ok.1 h
  have hfollows := hitems rest c' hrest
  -- The item without a boundary in front of it.
  have hcons : FollowsSeq (t :: rest) (∀ e ∈ i :: items, e.Proper)
      (i.passes && passesAll items) (endsOpenSeq mode (i :: items)) := by
    rw [endsOpenSeq]
    obtain ⟨d, rfl⟩ | hne := isCC_or i
    · obtain ⟨rfl, -⟩ := Prod.mk.inj (Except.ok.inj ht)
      cases hv with
      | cc hd =>
        refine ((follows_cc hd).cons hfollows).congr (fun hp ↦ ?_) rfl ?_
        · obtain ⟨hd, hp⟩ := List.forall_mem_cons.1 hp
          cases hd with
          | cc hne => exact ⟨hne, hp⟩
        · refine or_congr Iff.rfl ?_
          simp only [openItem, atSingleChar, Bool.and_eq_true, Bool.not_eq_true',
            Bool.and_eq_false_iff, decide_eq_false_iff_not]
          cases mode <;> simp [and_comm, and_assoc]
    · rw [transformItem_eq hne] at ht
      rw [openItem_eq hne]
      rw [atSingleChar_eq_false hne, Bool.false_and, Bool.not_false, Bool.and_true] at hfollows
      exact ((hi t c ht).cons hfollows).congr (fun hp ↦ List.forall_mem_cons.1 hp) rfl Iff.rfl
  split_ifs at h with hafter
  · obtain ⟨rfl, -⟩ := Prod.mk.inj (Except.ok.inj h)
    rw [Bool.and_eq_true] at hafter
    refine (follows_GCB.cons hcons).congr (fun hp ↦ ⟨trivial, hp⟩) ?_ (by simp)
    rw [hafter.1, Bool.not_true, Bool.and_false, Bool.false_and]
  · obtain ⟨rfl, -⟩ := Prod.mk.inj (Except.ok.inj h)
    refine hcons.congr id ?_ Iff.rfl
    rw [passesAll]
    obtain ⟨d, rfl⟩ | hne := isCC_or i
    · rfl
    · rw [atSingleChar_eq_false hne, Bool.not_false, Bool.and_true] at hafter
      rw [Bool.eq_false_iff.2 hafter, Bool.not_false, Bool.and_true]

mutual

theorem transform_follows {mode changed : Bool} {r : RE} (e : ModedRE) (hv : e.Valid)
    (h : transform mode e = .ok (r, changed)) :
    Follows r e.Proper e.passes (e.endsOpen mode) := by
  cases hv with
  | @cc c hc =>
    rw [transform] at h
    split_ifs at h with hmode
    · obtain ⟨rfl, -⟩ := Prod.mk.inj (Except.ok.inj h)
      refine ((follows_cc hc).cons (follows_GCB.cons followsSeq_nil)).makeSeq.congr ?_ rfl ?_
      · intro hp
        cases hp with
        | cc hne => exact ⟨hne, trivial, trivial⟩
      · simp [endsOpen, hmode]
    · obtain ⟨rfl, -⟩ := Prod.mk.inj (Except.ok.inj h)
      refine (follows_cc hc).congr ?_ rfl (by simp [endsOpen, hmode])
      intro hp
      cases hp with
      | cc hne => exact hne
  | range node =>
    rw [transform] at h
    split_ifs at h with hmode
    · obtain ⟨rfl, -⟩ := Prod.mk.inj (Except.ok.inj h)
      refine ((follows_rangeNode node).cons (follows_GCB.cons followsSeq_nil)).makeSeq.congr
        (fun _ ↦ ⟨trivial, trivial, trivial⟩) rfl ?_
      simp [endsOpen, hmode]
    · obtain ⟨rfl, -⟩ := Prod.mk.inj (Except.ok.inj h)
      exact (follows_rangeNode node).congr (fun _ ↦ trivial) rfl (by simp [endsOpen, hmode])
  | any =>
    obtain ⟨rfl, -⟩ := Prod.mk.inj (Except.ok.inj h)
    exact follows_any.congr (fun _ ↦ trivial) rfl Iff.rfl
  | dot =>
    rw [transform] at h
    split_ifs at h with hmode
    · obtain ⟨x, hx, hfollows⟩ := follows_transformDot
      rw [hx, ok_bind] at h
      obtain ⟨rfl, -⟩ := Prod.mk.inj (Except.ok.inj h)
      exact hfollows.congr (fun _ ↦ trivial) rfl (by simp [endsOpen, hmode])
    · obtain ⟨rfl, -⟩ := Prod.mk.inj (Except.ok.inj h)
      exact (follows_name "." follows_any).congr (fun _ ↦ trivial) rfl (by simp [endsOpen, hmode])
  | @seq elems hv =>
    rw [transform] at h
    obtain ⟨⟨list, c⟩, hlist, h⟩ := bind_eq_ok.1 h
    have hfollows : FollowsSeq list (ModedRE.seq elems).Proper (passesAll elems)
        (endsOpenSeq mode elems) :=
      (transformSeq_follows elems hv hlist).congr (fun hp ↦ by cases hp; assumption) (by simp)
        Iff.rfl
    rw [ModedRE.passes, endsOpen]
    dsimp only at h
    split_ifs at h
    · obtain ⟨rfl, -⟩ := Prod.mk.inj (Except.ok.inj h)
      exact hfollows.makeSeq
    · obtain ⟨rfl, -⟩ := Prod.mk.inj (Except.ok.inj h)
      exact hfollows.seq
  | @alt elems hv =>
    rw [transform] at h
    obtain ⟨⟨list, c⟩, hlist, h⟩ := bind_eq_ok.1 h
    obtain ⟨hnil, hfollows⟩ := transformElems_follows elems hv hlist
    have hP (hp : (ModedRE.alt elems).Proper) : list ≠ [] ∧ ∀ e ∈ elems, e.Proper := by
      cases hp with
      | alt hne hp => exact ⟨fun heq ↦ hne (hnil.1 heq), hp⟩
    have hfollows := hfollows.congr (fun hp ↦ (hP hp).2) rfl Iff.rfl
    dsimp only at h
    split_ifs at h
    · obtain ⟨r', hr', h⟩ := bind_eq_ok.1 h
      obtain ⟨rfl, -⟩ := Prod.mk.inj (Except.ok.inj h)
      exact hfollows.makeAlt (fun hp ↦ (hP hp).1) hr'
    · obtain ⟨rfl, -⟩ := Prod.mk.inj (Except.ok.inj h)
      exact hfollows.alt fun hp ↦ (hP hp).1
  | @rep re lb ub hv hb =>
    rw [transform] at h
    obtain ⟨⟨x, c⟩, hx, h⟩ := bind_eq_ok.1 h
    have hfollows := transform_follows re hv hx
    have hP : (ModedRE.rep re lb ub).Proper → re.Proper ∧ ub ≠ 0 := by
      intro hp
      cases hp with
      | rep hp hub => exact ⟨hp, hub⟩
    dsimp only at h
    split_ifs at h
    · obtain ⟨r', hr', h⟩ := bind_eq_ok.1 h
      obtain ⟨rfl, -⟩ := Prod.mk.inj (Except.ok.inj h)
      exact (hfollows.makeRep hb hr').congr hP rfl Iff.rfl
    · obtain ⟨rfl, -⟩ := Prod.mk.inj (Except.ok.inj h)
      exact (hfollows.rep hb).congr hP rfl Iff.rfl
  | @group re on hv =>
    rw [transform] at h
    obtain ⟨⟨x, c⟩, hx, h⟩ := bind_eq_ok.1 h
    obtain ⟨rfl, -⟩ := Prod.mk.inj (Except.ok.inj h)
    refine (transform_follows re hv hx).congr (fun hp ↦ ?_) rfl Iff.rfl
    cases hp with
    | group _ hp => exact hp

theorem transformElems_follows {mode changed : Bool} {list : List RE} (elems : List ModedRE)
    (hv : ∀ e ∈ elems, e.Valid)
    (h : transformElems mode elems = .ok (list, changed)) :
    (list = [] ↔ elems = []) ∧
      FollowsAlt list (∀ e ∈ elems, e.Proper) (passesAny elems) (endsOpenAny mode elems) := by
  cases elems with
  | nil =>
    obtain ⟨rfl, -⟩ := Prod.mk.inj (Except.ok.inj h)
    exact ⟨iff_of_true rfl rfl, followsAlt_nil⟩
  | cons e elems =>
    rw [transformElems] at h
    obtain ⟨⟨e1, c⟩, he1, h⟩ := bind_eq_ok.1 h
    obtain ⟨⟨elems1, c'⟩, helems1, h⟩ := bind_eq_ok.1 h
    obtain ⟨rfl, -⟩ := Prod.mk.inj (Except.ok.inj h)
    obtain ⟨hve, hv⟩ := List.forall_mem_cons.1 hv
    obtain ⟨hnil, hfollows⟩ := transformElems_follows elems hv helems1
    refine ⟨by simp, ?_⟩
    refine (((transform_follows e hve he1).consAlt hfollows fun hempty ↦ ?_).congr
      (fun hp ↦ List.forall_mem_cons.1 hp) rfl Iff.rfl)
    rw [hnil.1 hempty]
    exact ⟨rfl, id⟩

theorem transformSeq_follows {mode after changed : Bool} {list : List RE}
    (items : List ModedRE) (hv : ∀ e ∈ items, e.Valid)
    (h : transformSeq mode after items = .ok (list, changed)) :
    FollowsSeq list (∀ e ∈ items, e.Proper) (passesAll items && !(after && mode))
      (endsOpenSeq mode items) := by
  cases items with
  | nil =>
    rw [transformSeq] at h
    split_ifs at h with hafter
    · obtain ⟨rfl, -⟩ := Prod.mk.inj (Except.ok.inj h)
      refine (follows_GCB.cons followsSeq_nil).congr (fun _ ↦ ⟨trivial, trivial⟩) ?_ ?_
      · rw [hafter]
        rfl
      · simp [endsOpenSeq]
    · obtain ⟨rfl, -⟩ := Prod.mk.inj (Except.ok.inj h)
      refine followsSeq_nil.congr (fun _ ↦ trivial) ?_ (by simp [endsOpenSeq])
      rw [Bool.eq_false_iff.2 hafter]
      rfl
  | cons i items =>
    obtain ⟨hvi, hv⟩ := List.forall_mem_cons.1 hv
    exact transformSeq_cons hvi (fun t c ↦ transform_follows i hvi)
      (fun rest c ↦ transformSeq_follows items hv) h

end

end Transform

section Exact

variable {r : RE} {P : Prop} {e : Bool} {o : Prop}

theorem endsAtBoundary_of_follows (h : Follows r P e o) (ho : ¬ o) : EndsAtBoundary r := by
  intro text property boundary p q hpq hlt
  obtain ⟨heq, -⟩ | ⟨-, hopen⟩ | ⟨-, hq⟩ := h.ends text property boundary p q hpq
  · omega
  · exact absurd hopen ho
  · exact hq

/-- An open end is the end of a text that is no boundary. -/
theorem not_endsAtBoundary_of_follows (h : Follows r P e o) (hP : P) (ho : o) :
    ¬ EndsAtBoundary r := by
  intro hends
  obtain ⟨w, hne, hw⟩ := (h.realized hP).opens ho
  have hmatch := hw w (fun q ↦ q < w.length) 0 (fun i _ ↦ by rw [Nat.zero_add])
    fun q _ hq ↦ by omega
  rw [Nat.zero_add] at hmatch
  exact Nat.lt_irrefl _ (hends w (fun _ _ ↦ True) (fun q ↦ q < w.length) 0 w.length hmatch
    (List.length_pos_iff.2 hne))

/-- What is resolved in grapheme mode is matched up to a boundary, except where it may end with a
class of several characters that is an item of a sequence, with `Any`, or with a part whose
mode is off. -/
theorem resolveGraphemeMode_exact (re : ModedRE) (hv : re.Valid) (r : RE)
    (h : resolveGraphemeMode re true = .ok r) :
    (¬ re.endsOpen true → EndsAtBoundary r) ∧
      (re.Proper → (EndsAtBoundary r ↔ ¬ re.endsOpen true)) := by
  obtain ⟨⟨x, c⟩, hx, h⟩ := bind_eq_ok.1 h
  obtain rfl : x = r := Except.ok.inj h
  have hfollows := transform_follows re hv hx
  refine ⟨endsAtBoundary_of_follows hfollows, fun hP ↦ ?_⟩
  constructor
  · exact fun hends ho ↦ not_endsAtBoundary_of_follows hfollows hP ho hends
  · exact endsAtBoundary_of_follows hfollows

/-- The class of `a` alone. -/
theorem resolveGraphemeMode_exact_class :
    EndsAtBoundary (makeSeq [cc ⟨.singleton zeroed 97, Unicode⟩, GCB]) :=
  (resolveGraphemeMode_exact (.cc ⟨.singleton zeroed 97, Unicode⟩)
    (.cc (singleton_wellFormed zeroed (by decide))) _ rfl).1 fun h ↦ Bool.false_ne_true h.1.symm

/-- `[bc][bc]` stays as it is, and its last character may be inside a cluster. -/
theorem resolveGraphemeMode_leaves_open :
    resolveGraphemeMode (.seq [.cc (listed zeroed [98, 99]), .cc (listed zeroed [98, 99])]) true =
        .ok (seq [cc (listed zeroed [98, 99]), cc (listed zeroed [98, 99])]) ∧
      ¬ EndsAtBoundary (seq [cc (listed zeroed [98, 99]), cc (listed zeroed [98, 99])]) := by
  have hids : ∀ id ∈ [98, 99], id ≤ unicodeMax := by decide
  obtain ⟨hw, -, hm⟩ := listed_spec zeroed hids
  generalize listed zeroed [98, 99] = bc at hw hm
  have hcount : bc.set.count ≠ 1 := by
    have hpair : ({x | x ∈ [98, 99]} : Set ℕ) = {98, 99} := by
      ext x
      simp
    rw [count_eq hw.verified, before_eq_ncard hw.verified, hm, hpair, Set.ncard_pair (by decide)]
    decide
  have hnonempty : bc.set.members.Nonempty := ⟨98, by simp [hm]⟩
  have hres : resolveGraphemeMode (.seq [.cc bc, .cc bc]) true = .ok (seq [cc bc, cc bc]) := by
    simp [resolveGraphemeMode, transform, transformSeq, transformItem, atSingleChar, hcount]
  refine ⟨hres, ?_⟩
  obtain ⟨⟨x, c⟩, hx, h⟩ := bind_eq_ok.1 hres
  obtain rfl : x = seq [cc bc, cc bc] := Except.ok.inj h
  have hitems : ∀ e ∈ [ModedRE.cc bc, .cc bc], e.Valid ∧ e.Proper := by
    simpa using ⟨ModedRE.Valid.cc hw, ModedRE.Proper.cc hnonempty⟩
  refine not_endsAtBoundary_of_follows
    (transform_follows _ (.seq fun e he ↦ (hitems e he).1) hx) (.seq fun e he ↦ (hitems e he).2) ?_
  exact .inl (.inr ⟨⟨hnonempty, fun h ↦ hcount h.2⟩, rfl⟩)

end Exact

end RE.GraphemeMode

end Parabix
