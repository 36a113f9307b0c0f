import LineCalc.Proofs.Parsing.Grammar

/-!
# Reading before other tokens

What is read depends on the tokens behind it only through its signs. A derivation is one before
other tokens if its signs are told the same of both (`ReadsWith.transfer`), and what they are told
is where the factors behind them end. So if tokens come behind a text, it has to be shown that its
factors end where they did (`SameEnds`).

This is an induction on the text, from its end: signs look only at what is left. What it needs of
the boundary is in `Seam`, and there are two boundaries of this kind: a sum that is appended, and
the comma or the parenthesis that closes what the text is put into.
-/

namespace LineCalc

open LineCalc.Parser (Production)

/-! ## Signs that are told the same -/

/-- The signs among some tokens are asked the same before others and before others still. -/
def SameSigns (skips : List Token → List Token → Prop) (ts after after' : List Token) : Prop :=
  ∀ us sign vs, ts = us ++ sign :: vs → sign.kind.isSign →
    (Operand skips (vs ++ after) ↔ Operand skips (vs ++ after'))

namespace SameSigns

variable {skips : List Token → List Token → Prop} {ts us after after' : List Token}

/-- The signs of the start are asked before the end as well. -/
theorem left (h : SameSigns skips (ts ++ us) after after') :
    SameSigns skips ts (us ++ after) (us ++ after') := by
  intro vs sign ws hts hsign
  simpa using h vs sign (ws ++ us) (by simp [hts]) hsign

/-- The signs of the end are among all. -/
theorem right (h : SameSigns skips (ts ++ us) after after') : SameSigns skips us after after' := by
  intro vs sign ws hus hsign
  exact h (ts ++ vs) sign ws (by simp [hus]) hsign

/-- It does not matter which tokens come first. -/
theorem symm (h : SameSigns skips ts after after') : SameSigns skips ts after' after :=
  fun us sign vs hts hsign => (h us sign vs hts hsign).symm

/-- The signs behind the first token are among all. -/
theorem tail {token : Token} (h : SameSigns skips (token :: ts) after after') :
    SameSigns skips ts after after' :=
  @right skips [token] ts after after' h

end SameSigns

mutual

/-- What is read before some tokens is read before others of which its signs are told the same. -/
theorem ReadsWith.transfer {skips : List Token → List Token → Prop} :
    ∀ {p : Production} {ts after after' : List Token} {t : SyntaxTree},
      ReadsWith skips p ts after t → p ≠ .complete → SameSigns skips ts after after' →
        ReadsWith skips p ts after' t
  | _, _, _, _, _, .leaf h, _, _ => .leaf h
  | _, _, _, _, _, .group ho h hc, _, hs => .group ho (h.transfer nofun hs.tail.left) hc
  | _, _, _, _, _, .call h ho hus hc, _, hs => by
    rw [List.append_assoc] at hs
    have hcallee := h.transfer nofun (by simpa using hs.left)
    exact .call (by simpa using hcallee) ho (hus.transfer hs.right.tail.left) hc
  | _, _, _, _, _, .primary h, _, hs => .primary (h.transfer nofun hs)
  | _, _, _, _, _, .power h hcaret hus, _, hs =>
    .power (h.transfer nofun hs.left) hcaret (hus.transfer nofun hs.right.tail)
  | _, _, _, _, _, .factor h hsign, _, hs =>
    .factor (h.transfer nofun hs) fun sign us hts hkind =>
      (hs [] sign us hts hkind).mp (hsign sign us hts hkind)
  | _, _, _, _, _, .signed hsign h hunary, _, hs =>
    .signed hsign (h.transfer nofun hs.tail) (mt (hs [] _ _ rfl hsign).mpr hunary)
  | _, _, _, _, _, .term h, _, hs => .term (h.transfer nofun hs)
  | _, _, _, _, _, .product h ho hus, _, hs =>
    .product (h.transfer nofun hs.left) ho (hus.transfer nofun hs.right.tail)
  | _, _, _, _, _, .expression h, _, hs => .expression (h.transfer nofun hs)
  | _, _, _, _, _, .sum h ho hus, _, hs =>
    .sum (h.transfer nofun hs.left) ho (hus.transfer nofun hs.right.tail)
  | _, _, _, _, _, .complete _, hp, _ => absurd rfl hp

/-- So are the arguments of a call. -/
theorem ReadsArguments.transfer {skips : List Token → List Token → Prop} :
    ∀ {ts after after' : List Token} {trees : List SyntaxTree},
      ReadsArguments skips ts after trees → SameSigns skips ts after after' →
        ReadsArguments skips ts after' trees
  | _, _, _, _, .none, _ => .none
  | _, _, _, _, .some h hus, hs => .some (h.transfer nofun hs.left) (hus.transfer hs.right)

/-- So are the arguments after the first. -/
theorem ReadsMore.transfer {skips : List Token → List Token → Prop} :
    ∀ {ts after after' : List Token} {trees : List SyntaxTree},
      ReadsMore skips ts after trees → SameSigns skips ts after after' →
        ReadsMore skips ts after' trees
  | _, _, _, _, .nil, _ => .nil
  | _, _, _, _, .cons hcomma h hus, hs => by
    rw [List.cons_append] at hs
    exact .cons hcomma (h.transfer nofun hs.tail.left) (hus.transfer hs.tail.right)

end

/-! ## Factors that end at the same places -/

/-- The factors at the start of `w` end at the same places when `x` is appended. -/
def SameEnds (x w : List Token) : Prop :=
  ∀ rest, Skips (w ++ x) rest ↔ ∃ v, rest = v ++ x ∧ Skips w v

/-- If factors end at the same places, and so do those behind the first, then a sign is told the
same of them. -/
theorem SameEnds.operand_iff {x w : List Token} (hsame : SameEnds x w)
    (hnext : ((nextKind (w ++ x)).joinsFactors ∨ nextKind (w ++ x) = .caret) ↔
      ((nextKind w).joinsFactors ∨ nextKind w = .caret))
    (hrest : ∀ v, (nextKind w).joinsFactors ∨ nextKind w = .caret → Skips w v → SameEnds x v) :
    Operand Skips w ↔ Operand Skips (w ++ x) := by
  unfold Operand
  rw [hnext]
  refine or_congr (and_congr_right fun hkind => ?_) (not_congr ?_)
  · constructor
    · rintro ⟨v, v', hv, hv'⟩
      exact ⟨v ++ x, v' ++ x, (hsame _).mpr ⟨v, rfl, hv⟩,
        (hrest v hkind hv _).mpr ⟨v', rfl, hv'⟩⟩
    · rintro ⟨rest, v', hfirst, hsecond⟩
      obtain ⟨v, rfl, hv⟩ := (hsame rest).mp hfirst
      obtain ⟨u, -, hu⟩ := (hrest v hkind hv v').mp hsecond
      exact ⟨v, u, hv, hu⟩
  · constructor
    · rintro ⟨v, hv⟩
      exact ⟨v ++ x, (hsame _).mpr ⟨v, rfl, hv⟩⟩
    · rintro ⟨rest, hfirst⟩
      obtain ⟨v, -, hv⟩ := (hsame rest).mp hfirst
      exact ⟨v, hv⟩

/-- Tokens with the property `P` are read as they were when `x` comes behind them, because of three
facts about the boundary: something goes on with `x` only if it went on, no factor gets across, and
a sign is told the same if factors end at the same places behind it. -/
structure Seam (x : List Token) (P : List Token → Prop) : Prop where
  continues_iff : ∀ v, Continues (v ++ x) ↔ Continues v
  stays : ∀ {w us rest : List Token} {t : SyntaxTree}, P w → Reads .factor us rest t →
    w ++ x = us ++ rest → ∃ v, w = us ++ v ∧ rest = v ++ x
  operand_iff : ∀ {us w : List Token} {sign : Token}, P (us ++ sign :: w) → sign.kind.isSign →
    (∀ v, v.length ≤ w.length → P v → SameEnds x v) → (Operand Skips w ↔ Operand Skips (w ++ x))

namespace Seam

variable {x : List Token} {P : List Token → Prop} (h : Seam x P)
include h

/-- If factors end at the same places behind them, signs are told the same. -/
theorem sameSigns {ts after : List Token} (hall : P (ts ++ after))
    (hends : ∀ v, v.length < (ts ++ after).length → P v → SameEnds x v) :
    SameSigns Skips ts after (after ++ x) := by
  intro us sign vs hts hsign
  have hsplit : ts ++ after = us ++ sign :: (vs ++ after) := by simp [hts]
  rw [hsplit] at hall hends
  rw [← List.append_assoc]
  refine h.operand_iff hall hsign fun v hv => hends v ?_
  simp only [List.length_append, List.length_cons] at hv ⊢
  omega

/-- Factors end at the same places. -/
theorem sameEnds {w : List Token} (hw : P w) : SameEnds x w := by
  induction hn : w.length using Nat.strongRecOn generalizing w with
  | ind n ih =>
    subst hn
    have hends : ∀ v : List Token, v.length < w.length → P v → SameEnds x v :=
      fun v hlength hv => ih v.length hlength hv rfl
    intro rest
    constructor
    · intro hskips
      obtain ⟨us, t, hus, hc, hread⟩ := (settled_skips _ _).mp hskips
      obtain ⟨v, rfl, rfl⟩ := h.stays hw hread hus
      refine ⟨v, rfl, (settled_skips _ _).mpr ⟨us, t, rfl, ?_, ?_⟩⟩
      · rwa [← h.continues_iff]
      · exact hread.transfer nofun (h.sameSigns hw hends).symm
    · rintro ⟨v, rfl, hskips⟩
      obtain ⟨us, t, rfl, hc, hread⟩ := (settled_skips _ _).mp hskips
      refine (settled_skips _ _).mpr
        ⟨us, t, by simp, ?_, hread.transfer nofun (h.sameSigns hw hends)⟩
      rwa [h.continues_iff]

/-- An expression is read as it was. -/
theorem reads_iff {ts : List Token} (hts : P ts) (t : SyntaxTree) :
    Reads .expression ts x t ↔ Reads .expression ts [] t := by
  have hsigns : SameSigns Skips ts [] x :=
    h.sameSigns (by simpa using hts) fun v _ hv => h.sameEnds hv
  exact ⟨fun hread => hread.transfer nofun hsigns.symm, fun hread => hread.transfer nofun hsigns⟩

end Seam

end LineCalc
