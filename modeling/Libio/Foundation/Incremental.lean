import Mathlib.Data.List.Basic

/-! # Incremental consumers

A consumer takes from a buffer what it can use and reports how far it came; it is called again when
more has arrived at the end of the buffer. This file says when the calls for the pieces of a text
amount to one call for the whole of it: when the consumer can be resumed at each cut. States,
reports, failures and symbols are arbitrary. -/

namespace Libio

namespace Consumer

universe u

variable {σ ρ ε α : Type u} (parse : σ → List α → Except ε (ρ × σ × List α))

/-- One call for each piece, with what the calls report, the last state and what is left over. -/
def feed : σ → List α → List (List α) → Except ε (List ρ × σ × List α)
  | s, buf, [] => .ok ([], s, buf)
  | s, buf, p :: ps =>
      match parse s (buf ++ p) with
      | .error e => .error e
      | .ok (res, t, rest) => (feed t rest ps).map fun r => (res :: r.1, r.2)

/-- The pieces are taken with the report `more` for all of them but the last one. -/
def Completes (more last : ρ) (s : σ) (buf : List α) (ps : List (List α)) (t : σ) (rest : List α) :
    Prop :=
  feed parse s buf ps = .ok (List.replicate (ps.length - 1) more ++ [last], t, rest)

/-- A consumer that has reported `more` for `x` goes on, up to the end of the text, as if it had not
been interrupted. -/
def Resumes (more : ρ) (s : σ) (text x : List α) : Prop :=
  ∃ t rest, parse s x = .ok (more, t, rest) ∧
    ∀ y, x ++ y <+: text → parse t (rest ++ y) = parse s (x ++ y)

/-- Each cut between two pieces meets a condition on the part of the text in front of it. -/
def EachCut (C : List α → Prop) (ps : List (List α)) : Prop :=
  ∀ ps₁ ps₂, ps = ps₁ ++ ps₂ → ps₁ ≠ [] → ps₂ ≠ [] → C ps₁.flatten

variable {parse} {more last : ρ} {s t u : σ} {buf rest left x text : List α} {ps qs : List (List α)}

/-! ## Calls -/

/-- A call for the first piece, and then the others. -/
theorem feed_cons_eq_ok {p : List α} {r : List ρ × σ × List α} :
    feed parse s buf (p :: ps) = .ok r ↔ ∃ res t rest, parse s (buf ++ p) = .ok (res, t, rest) ∧
      ∃ r', feed parse t rest ps = .ok r' ∧ r = (res :: r'.1, r'.2) := by
  rw [feed]
  cases parse s (buf ++ p) with
  | error e => simp
  | ok a =>
      obtain ⟨res, t, rest⟩ := a
      simp only
      constructor
      · intro h
        cases hfeed : feed parse t rest ps with
        | error e =>
            rw [hfeed] at h
            cases h
        | ok r' =>
            rw [hfeed] at h
            exact ⟨res, t, rest, rfl, r', hfeed, (Except.ok.inj h).symm⟩
      · rintro ⟨_, _, _, he, r', hfeed, rfl⟩
        cases he
        rw [hfeed]
        rfl

/-- The calls for two lists of pieces in a row. -/
theorem feed_append_eq_ok {r : List ρ × σ × List α} :
    feed parse s buf (ps ++ qs) = .ok r ↔ ∃ rs t rest, feed parse s buf ps = .ok (rs, t, rest) ∧
      ∃ r', feed parse t rest qs = .ok r' ∧ r = (rs ++ r'.1, r'.2) := by
  induction ps generalizing s buf r with
  | nil =>
      constructor
      · exact fun h => ⟨[], s, buf, rfl, r, h, rfl⟩
      · rintro ⟨_, _, _, he, r', h, rfl⟩
        cases he
        exact h
  | cons p ps ih =>
      rw [List.cons_append, feed_cons_eq_ok]
      constructor
      · rintro ⟨res, t, rest, hparse, r', hfeed, rfl⟩
        obtain ⟨rs, t', rest', hps, r'', hqs, rfl⟩ := ih.mp hfeed
        exact ⟨res :: rs, t', rest', feed_cons_eq_ok.mpr ⟨res, t, rest, hparse, _, hps, rfl⟩, r'',
          hqs, rfl⟩
      · rintro ⟨rs, t', rest', hps, r', hqs, rfl⟩
        obtain ⟨res, t, rest, hparse, ⟨_, _, _⟩, hfeed, he⟩ := feed_cons_eq_ok.mp hps
        cases he
        exact ⟨res, t, rest, hparse, _, ih.mpr ⟨_, _, _, hfeed, r', hqs, rfl⟩, rfl⟩

/-- The reports are as many as the pieces. -/
theorem length_of_feed {r : List ρ × σ × List α} (h : feed parse s buf ps = .ok r) :
    r.1.length = ps.length := by
  induction ps generalizing s buf r with
  | nil =>
      obtain rfl := Except.ok.inj h
      rfl
  | cons p ps ih =>
      obtain ⟨res, t, rest, -, r', hfeed, rfl⟩ := feed_cons_eq_ok.mp h
      simp [ih hfeed]

/-- **Conservation rule.** If each call keeps the sum of a measure of the state and of the length of
the buffer, the calls together add the length of the pieces. -/
theorem feed_conserves {J : σ → Prop} {μ : σ → Nat}
    (hcall : ∀ s buf res t rest, J s → parse s buf = .ok (res, t, rest) →
      J t ∧ μ t + rest.length = μ s + buf.length)
    (hs : J s) {r : List ρ × σ × List α} (h : feed parse s buf ps = .ok r) :
    μ r.2.1 + r.2.2.length = μ s + buf.length + ps.flatten.length := by
  induction ps generalizing s buf r with
  | nil =>
      obtain rfl := Except.ok.inj h
      simp
  | cons p ps ih =>
      obtain ⟨res, t, rest, hparse, r', hfeed, rfl⟩ := feed_cons_eq_ok.mp h
      obtain ⟨ht, hsum⟩ := hcall _ _ _ _ _ hs hparse
      have hrest := ih ht hfeed
      simp only [List.length_append, List.flatten_cons] at hsum hrest ⊢
      omega

/-- The first of the calls that complete a text. -/
theorem completes_cons {p : List α} :
    Completes parse more last s buf (p :: ps) u left ↔
      (ps = [] ∧ parse s (buf ++ p) = .ok (last, u, left)) ∨
      (ps ≠ [] ∧ ∃ t rest, parse s (buf ++ p) = .ok (more, t, rest) ∧
        Completes parse more last t rest ps u left) := by
  unfold Completes
  rw [feed_cons_eq_ok]
  cases ps with
  | nil =>
      constructor
      · rintro ⟨res, t, rest, hparse, _, hfeed, he⟩
        obtain rfl := Except.ok.inj hfeed
        simp only [List.length_singleton, Nat.sub_self, List.replicate_zero, List.nil_append,
          Prod.mk.injEq, List.cons.injEq, and_true] at he
        obtain ⟨rfl, rfl, rfl⟩ := he
        exact .inl ⟨rfl, hparse⟩
      · rintro (⟨-, hparse⟩ | ⟨hne, -⟩)
        · exact ⟨last, u, left, hparse, _, rfl, rfl⟩
        · exact absurd rfl hne
  | cons q ps =>
      have hlist : List.replicate ((p :: q :: ps).length - 1) more ++ [last] =
          more :: (List.replicate ((q :: ps).length - 1) more ++ [last]) := by
        simp [List.replicate_succ]
      rw [hlist]
      constructor
      · rintro ⟨res, t, rest, hparse, ⟨rs, _⟩, hfeed, he⟩
        simp only [Prod.mk.injEq, List.cons.injEq] at he
        obtain ⟨⟨rfl, rfl⟩, rfl⟩ := he
        exact .inr ⟨by simp, t, rest, hparse, hfeed⟩
      · rintro (⟨hnil, -⟩ | ⟨-, t, rest, hparse, hfeed⟩)
        · exact absurd hnil (by simp)
        · exact ⟨more, t, rest, hparse, _, hfeed, rfl⟩

/-! ## Cuts at which the consumer can be resumed -/

/-- A text that is complete earlier. -/
theorem Resumes.shorter {text' : List α} (h : Resumes parse more s text x) (ht : text' <+: text) :
    Resumes parse more s text' x := by
  obtain ⟨t, rest, hparse, hgo⟩ := h
  exact ⟨t, rest, hparse, fun y hy => hgo y (hy.trans ht)⟩

/-- A cut of the pieces behind the first one. -/
theorem EachCut.tail {C : List α → Prop} {p : List α} (h : EachCut C (p :: ps)) :
    EachCut (fun x => C (p ++ x)) ps := by
  rintro ps₁ ps₂ rfl h₁ h₂
  exact h (p :: ps₁) ps₂ rfl (by simp) h₂

/-- A weaker condition holds at each cut, too. -/
theorem EachCut.mono {C D : List α → Prop} (h : EachCut C ps) (hCD : ∀ x, C x → D x) :
    EachCut D ps :=
  fun ps₁ ps₂ he h₁ h₂ => hCD _ (h ps₁ ps₂ he h₁ h₂)

/-- The only cut of two pieces. -/
theorem EachCut.pair {C : List α → Prop} {p q : List α} (h : C p) : EachCut C [p, q] := by
  intro ps₁ ps₂ he h₁ h₂
  match ps₁, ps₂ with
  | [], _ => exact absurd rfl h₁
  | _, [] => exact absurd rfl h₂
  | [p'], _ :: _ =>
      simp only [List.singleton_append, List.cons.injEq] at he
      obtain ⟨rfl, -⟩ := he
      simpa using h
  | _ :: _ :: ps₁, _ :: _ =>
      have hlength := congrArg List.length he
      simp only [List.length_cons, List.length_append, List.length_nil] at hlength
      omega

/-- Pieces that go on from a state in which the consumer can be resumed. -/
theorem feed_of_resumed (hps : ps ≠ [])
    (hgo : ∀ y, x ++ y <+: text → parse t (rest ++ y) = parse s (x ++ y))
    (htext : x ++ ps.flatten <+: text)
    (hcuts : EachCut (fun y => Resumes parse more s text (x ++ y)) ps) :
    feed parse t rest ps = (parse s (x ++ ps.flatten)).map fun r =>
      (List.replicate (ps.length - 1) more ++ [r.1], r.2) := by
  induction ps generalizing x t rest with
  | nil => exact absurd rfl hps
  | cons p ps ih =>
      have hp : x ++ p <+: text := by
        refine List.IsPrefix.trans ?_ htext
        rw [List.flatten_cons, ← List.append_assoc]
        exact List.prefix_append _ _
      rw [feed, hgo p hp]
      cases ps with
      | nil =>
          rw [List.flatten_singleton]
          cases parse s (x ++ p) <;> rfl
      | cons q ps =>
          -- the first cut is behind `p`
          obtain ⟨t', rest', hparse, hgo'⟩ : Resumes parse more s text (x ++ p) := by
            simpa using hcuts [p] (q :: ps) rfl (by simp) (by simp)
          have hrest : ∀ y, x ++ p ++ y <+: text →
              parse t' (rest' ++ y) = parse s (x ++ p ++ y) := hgo'
          have hflatten : x ++ (p :: q :: ps).flatten = x ++ p ++ (q :: ps).flatten := by simp
          have hcuts' : EachCut (fun y => Resumes parse more s text (x ++ p ++ y)) (q :: ps) :=
            hcuts.tail.mono fun y hy => by simpa using hy
          rw [hparse, hflatten]
          simp only
          rw [ih (by simp) hrest (hflatten ▸ htext) hcuts']
          cases parse s (x ++ p ++ (q :: ps).flatten) <;> rfl

/-- **Resumption rule.** If a consumer can be resumed at each cut, the calls for the pieces of a
text amount to one call for the whole text. -/
theorem feed_of_resumes (hps : ps ≠ []) (hcuts : EachCut (Resumes parse more s ps.flatten) ps) :
    feed parse s [] ps = (parse s ps.flatten).map fun r =>
      (List.replicate (ps.length - 1) more ++ [r.1], r.2) :=
  feed_of_resumed (x := []) hps (fun _ _ => rfl) (List.prefix_refl _) hcuts

/-! ## The first cut that does not meet a condition -/

/-- Of the cuts that do not meet a condition there is a first one. -/
theorem exists_first_cut {C : List α → Prop} (h : ¬EachCut C ps) :
    ∃ ps₁ ps₂, ps = ps₁ ++ ps₂ ∧ ps₁ ≠ [] ∧ ps₂ ≠ [] ∧ EachCut C ps₁ ∧ ¬C ps₁.flatten := by
  have hfirst : ∀ (n : Nat) (ps₁ ps₂ : List (List α)), ps₁.length ≤ n → ps = ps₁ ++ ps₂ → ps₁ ≠ [] →
      ps₂ ≠ [] → ¬C ps₁.flatten →
      ∃ ps₁ ps₂, ps = ps₁ ++ ps₂ ∧ ps₁ ≠ [] ∧ ps₂ ≠ [] ∧ EachCut C ps₁ ∧ ¬C ps₁.flatten := by
    intro n
    induction n with
    | zero =>
        intro ps₁ ps₂ hn _ h₁
        exact absurd (List.length_eq_zero_iff.mp (Nat.le_zero.mp hn)) h₁
    | succ n ih =>
        intro ps₁ ps₂ hn he h₁ h₂ hC
        by_cases hearlier : EachCut C ps₁
        · exact ⟨ps₁, ps₂, he, h₁, h₂, hearlier, hC⟩
        · unfold EachCut at hearlier
          push Not at hearlier
          obtain ⟨qs₁, qs₂, rfl, hq₁, hq₂, hCq⟩ := hearlier
          have hpos := List.length_pos_iff.mpr hq₂
          rw [List.length_append] at hn
          refine ih qs₁ (qs₂ ++ ps₂) (by omega) (by rw [he, List.append_assoc]) hq₁ ?_ hCq
          exact fun hnil => h₂ (List.append_eq_nil_iff.mp hnil).2
  unfold EachCut at h
  push Not at h
  obtain ⟨ps₁, ps₂, he, h₁, h₂, hC⟩ := h
  exact hfirst ps₁.length ps₁ ps₂ (Nat.le_refl _) he h₁ h₂ hC

/-- The calls for pieces that complete, from a cut on up to which the consumer can be resumed. -/
theorem Completes.split (hps : ps ≠ []) (hqs : qs ≠ [])
    (hcuts : EachCut (Resumes parse more s ps.flatten) ps)
    (h : Completes parse more last s [] (ps ++ qs) u left) :
    ∃ t rest, parse s ps.flatten = .ok (more, t, rest) ∧
      Completes parse more last t rest qs u left := by
  obtain ⟨rs, t, rest, hfeed, r', hrest, he⟩ := feed_append_eq_ok.mp h
  rw [feed_of_resumes hps hcuts] at hfeed
  cases hparse : parse s ps.flatten with
  | error e =>
      rw [hparse] at hfeed
      cases hfeed
  | ok a =>
      obtain ⟨res, t', rest'⟩ := a
      rw [hparse] at hfeed
      obtain ⟨rfl, hstate⟩ := Prod.mk.inj (Except.ok.inj hfeed)
      obtain ⟨rfl, rfl⟩ := Prod.mk.inj hstate
      obtain ⟨hreports, hr'⟩ := Prod.mk.inj he
      have hlength := length_of_feed hrest
      have hpos := List.length_pos_iff.mpr hps
      have hpos' := List.length_pos_iff.mpr hqs
      -- the reports are split where the pieces are
      have hn : (ps ++ qs).length - 1 = (ps.length - 1) + (1 + (qs.length - 1)) := by
        rw [List.length_append]
        omega
      rw [hn, ← List.replicate_append_replicate, List.append_assoc, List.append_assoc] at hreports
      have hsplit := List.append_cancel_left hreports
      rw [Nat.add_comm 1, List.replicate_succ, List.cons_append, List.singleton_append] at hsplit
      obtain ⟨hmore, hlast⟩ := List.cons.inj hsplit
      refine ⟨t', rest', by rw [hmore], ?_⟩
      rw [Completes, hrest]
      exact congrArg Except.ok (Prod.ext hlast.symm hr'.symm)

/-! ## Where a cut is -/

/-- A cut of two texts in a row is in the first one, at its end at the latest, or in the second
one. -/
theorem cut_append {a b x y : List α} (h : x ++ y = a ++ b) :
    (∃ c, a = x ++ c ∧ y = c ++ b) ∨ ∃ c, c ≠ [] ∧ x = a ++ c ∧ b = c ++ y := by
  rcases List.append_eq_append_iff.mp h with ⟨c, ha, hy⟩ | ⟨c, hx, hb⟩
  · exact .inl ⟨c, ha, hy⟩
  · by_cases hc : c = []
    · subst hc
      exact .inl ⟨[], by simpa using hx.symm, by simpa using hb.symm⟩
    · exact .inr ⟨c, hc, hx, hb⟩

/-- A cut of a text that is made of parts is in front of a part, in a part, or behind all of
them. -/
theorem cut_flatMap {β : Type*} (g : β → List α) {l : List β} {b x y : List α}
    (h : x ++ y = l.flatMap g ++ b) :
    (∃ l₁, l₁ <+: l ∧ x = l₁.flatMap g) ∨
    (∃ l₁ a l₂ z w, l = l₁ ++ a :: l₂ ∧ g a = z ++ w ∧ z ≠ [] ∧ w ≠ [] ∧
      x = l₁.flatMap g ++ z ∧ y = w ++ (l₂.flatMap g ++ b)) ∨
    ∃ z, z ≠ [] ∧ x = l.flatMap g ++ z ∧ b = z ++ y := by
  induction l generalizing x with
  | nil =>
      by_cases hx : x = []
      · exact .inl ⟨[], List.prefix_refl _, hx⟩
      · exact .inr (.inr ⟨x, hx, rfl, h.symm⟩)
  | cons a l ih =>
      rw [List.flatMap_cons, List.append_assoc] at h
      rcases cut_append h with ⟨c, ha, hy⟩ | ⟨c, hc, hx, hrest⟩
      · by_cases hx : x = []
        · exact .inl ⟨[], List.nil_prefix, hx⟩
        · by_cases hc : c = []
          · subst hc
            exact .inl ⟨[a], by simp, by simpa using ha.symm⟩
          · exact .inr (.inl ⟨[], a, l, x, c, rfl, ha, hx, hc, rfl, hy⟩)
      · rcases ih hrest.symm with ⟨l₁, hl₁, hcl⟩ |
          ⟨l₁, a', l₂, z, w, rfl, hz, hzne, hwne, hcz, hy⟩ | ⟨z, hz, hcz, hb⟩
        · exact .inl ⟨a :: l₁, by simpa using hl₁, by rw [hx, hcl]; rfl⟩
        · refine .inr (.inl ⟨a :: l₁, a', l₂, z, w, rfl, hz, hzne, hwne, ?_, hy⟩)
          rw [hx, hcz, List.flatMap_cons, List.append_assoc]
        · refine .inr (.inr ⟨z, hz, ?_, hb⟩)
          rw [hx, hcz, List.flatMap_cons, List.append_assoc]

end Consumer

end Libio
