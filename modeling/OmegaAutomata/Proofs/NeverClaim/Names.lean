/-
# Names tell states apart

Two states have one name only if they have the same counter and the same display id
(`stateName_inj`).  The name of a state is its marking, a low line, and an ending: `all`,
`init`, or `S` and the display id.  No marking has a low line, so a name determines both
parts, and each of them determines what it was made from.
-/

import OmegaAutomata.Proofs.NeverClaim.Guards

namespace OmegaAutomata

open NeverClaim

namespace Automaton

variable {b : Automaton} {s t : State}

/-- What the name of a state has after its marking. -/
def nameEnding (b : Automaton) (s : State) : String :=
  if b.isUniversal s then "all"
  else if s.identity = initialIdentity then "init"
  else "S" ++ toString s.identity

theorem stateName_eq (b : Automaton) (s : State) :
    b.stateName s = b.markingName s ++ "_" ++ b.nameEnding s := by
  unfold stateName nameEnding
  split
  · rename_i h
    rw [isUniversal, Bool.and_eq_true] at h
    rw [markingName, if_pos h.2]
    rfl
  · split
    · rw [String.append_assoc]
      rfl
    · rw [String.append_assoc, String.append_assoc]
      have hending : "_" ++ "S" ++ toString s.identity = "_" ++ ("S" ++ toString s.identity) :=
        String.append_assoc
      rw [← hending]
      rfl

/-! ### Characters -/

theorem isDigit_of_mem_toString {n : Nat} {c : Char} (h : c ∈ (toString n).toList) :
    c.isDigit = true := by
  rw [Nat.toString_eq_repr, Nat.toList_repr] at h
  exact Nat.isDigit_of_mem_toDigits (by decide) (by decide) h

theorem plain_toString_nat (n : Nat) : Plain (toString n) := by
  have hpunctuation : punctuation.all (fun c => !c.isDigit) = true := by decide
  intro c hc hp
  have hdigit := List.all_eq_true.1 hpunctuation c hp
  rw [isDigit_of_mem_toString hc] at hdigit
  contradiction

theorem plain_toString_int (n : Int) : Plain (toString n) := by
  cases n with
  | ofNat n => exact plain_toString_nat n
  | negSucc n =>
    have hminus : Plain "-" := by decide
    exact hminus.append (plain_toString_nat (n + 1))

theorem plain_markingName (b : Automaton) (s : State) : Plain (b.markingName s) := by
  unfold markingName
  split
  · decide
  · exact Plain.append (by decide) (plain_toString_nat s.counter)

theorem plain_nameEnding (b : Automaton) (s : State) : Plain (b.nameEnding s) := by
  unfold nameEnding
  split
  · decide
  · split
    · decide
    · exact Plain.append (by decide) (plain_toString_int s.identity)

/-- The name of a state can be read as a name. -/
theorem isName_stateName (b : Automaton) (s : State) : IsName (b.stateName s) := by
  rw [stateName_eq]
  refine ⟨fun hnil => ?_, ((plain_markingName b s).append (by decide)).append
    (plain_nameEnding b s)⟩
  have hlist := String.toList_eq_nil_iff.2 hnil
  simp at hlist

/-! ### Injectivity -/

theorem toString_nat_injective {m n : Nat} (h : toString m = toString n) : m = n := by
  rw [Nat.toString_eq_repr, Nat.toString_eq_repr, ← String.toList_inj, Nat.toList_repr,
    Nat.toList_repr] at h
  rw [← Nat.ofDigitChars_ten_toDigits (n := m), h, Nat.ofDigitChars_ten_toDigits]

theorem toString_int_injective {m n : Int} (h : toString m = toString n) : m = n := by
  have hsign (k l : Nat) : toString (Int.ofNat k) ≠ toString (Int.negSucc l) := by
    intro heq
    have hmem : '-' ∈ (toString (Int.negSucc l)).toList := by
      show '-' ∈ ("-" ++ toString (l + 1)).toList
      rw [String.toList_append]
      exact List.mem_append_left _ (by decide)
    rw [← heq] at hmem
    exact absurd (isDigit_of_mem_toString (n := k) hmem) (by decide)
  cases m with
  | ofNat k =>
    cases n with
    | ofNat l => exact congrArg Int.ofNat (toString_nat_injective h)
    | negSucc l => exact absurd h (hsign k l)
  | negSucc k =>
    cases n with
    | ofNat l => exact absurd h.symm (hsign l k)
    | negSucc l =>
      have hnat : toString (k + 1) = toString (l + 1) := (String.append_right_inj _).1 h
      exact congrArg Int.negSucc (Nat.succ.inj (toString_nat_injective hnat))

theorem not_mem_markingName (b : Automaton) (s : State) : '_' ∉ (b.markingName s).toList := by
  unfold markingName
  split
  · decide
  · rw [String.toList_append]
    refine List.not_mem_append (by decide) fun h => ?_
    exact absurd (isDigit_of_mem_toString h) (by decide)

theorem markingName_cases (b : Automaton) (s : State) :
    s.counter = b.accept ∧ b.markingName s = "accept" ∨
      s.counter ≠ b.accept ∧ b.markingName s = "T" ++ toString s.counter := by
  rw [markingName]
  split
  · rename_i h
    exact .inl ⟨beq_iff_eq.1 h, rfl⟩
  · rename_i h
    exact .inr ⟨fun heq => h (beq_iff_eq.2 heq), rfl⟩

theorem nameEnding_cases (b : Automaton) (s : State) :
    s.identity = universalIdentity ∧ b.nameEnding s = "all" ∨
      s.identity = initialIdentity ∧ b.nameEnding s = "init" ∨
        b.nameEnding s = "S" ++ toString s.identity := by
  rw [nameEnding]
  split
  · rename_i h
    exact .inl ⟨beq_iff_eq.1 (Bool.and_eq_true_iff.1 h).1, rfl⟩
  · split
    · rename_i h
      exact .inr (.inl ⟨h, rfl⟩)
    · exact .inr (.inr rfl)

/-- The marking of a state determines its counter. -/
theorem counter_eq_of_markingName (h : b.markingName s = b.markingName t) :
    s.counter = t.counter := by
  rcases markingName_cases b s with ⟨hs, hms⟩ | ⟨-, hms⟩ <;>
    rcases markingName_cases b t with ⟨ht, hmt⟩ | ⟨-, hmt⟩ <;> rw [hms, hmt] at h
  · exact hs.trans ht.symm
  · simp [← String.toList_inj] at h
  · simp [← String.toList_inj] at h
  · exact toString_nat_injective ((String.append_right_inj _).1 h)

/-- The ending of a name determines the display id. -/
theorem identity_eq_of_nameEnding (h : b.nameEnding s = b.nameEnding t) :
    s.identity = t.identity := by
  rcases nameEnding_cases b s with ⟨hs, hes⟩ | ⟨hs, hes⟩ | hes <;>
    rcases nameEnding_cases b t with ⟨ht, het⟩ | ⟨ht, het⟩ | het <;> rw [hes, het] at h
  · exact hs.trans ht.symm
  · simp at h
  · simp [← String.toList_inj] at h
  · simp at h
  · exact hs.trans ht.symm
  · simp [← String.toList_inj] at h
  · simp [← String.toList_inj] at h
  · simp [← String.toList_inj] at h
  · exact toString_int_injective ((String.append_right_inj _).1 h)

theorem toList_stateName (b : Automaton) (s : State) : (b.stateName s).toList =
    (b.markingName s).toList ++ '_' :: (b.nameEnding s).toList := by
  rw [stateName_eq]
  simp

/-- **A name determines the counter and the display id.** -/
theorem stateName_inj : b.stateName s = b.stateName t ↔
    s.counter = t.counter ∧ s.identity = t.identity := by
  constructor
  · intro h
    rw [← String.toList_inj, toList_stateName, toList_stateName] at h
    have hplain (u : State) : ∀ c ∈ (b.markingName u).toList, (c != '_') = true :=
      fun c hc => bne_iff_ne.2 fun heq => not_mem_markingName b u (heq ▸ hc)
    have hmarking : (b.markingName s).toList = (b.markingName t).toList := by
      have htake := congrArg (List.takeWhile (· != '_')) h
      rw [List.takeWhile_append_of_pos (hplain s), List.takeWhile_append_of_pos (hplain t)] at htake
      simpa using htake
    rw [hmarking] at h
    have hending := (List.cons.inj (List.append_cancel_left h)).2
    exact ⟨counter_eq_of_markingName (String.toList_injective hmarking),
      identity_eq_of_nameEnding (String.toList_injective hending)⟩
  · rintro ⟨hcounter, hidentity⟩
    cases s
    cases t
    cases hcounter
    cases hidentity
    rfl

theorem isUniversal_eq_of_stateName (h : b.stateName s = b.stateName t) :
    b.isUniversal s = b.isUniversal t := by
  obtain ⟨hcounter, hidentity⟩ := stateName_inj.1 h
  rw [isUniversal, isUniversal, isAccepting, isAccepting, hcounter, hidentity]

/-- **A name starts with `accept`** exactly for accepting states. -/
theorem startsWith_stateName (b : Automaton) (s : State) :
    (b.stateName s).startsWith "accept" = true ↔ b.isAccepting s = true := by
  rw [String.startsWith_string_iff, toList_stateName, isAccepting, beq_iff_eq]
  rcases markingName_cases b s with ⟨hs, hms⟩ | ⟨hs, hms⟩ <;> rw [hms]
  · exact iff_of_true (List.prefix_append _ _) hs
  · refine iff_of_false (fun h => ?_) hs
    simp at h

end Automaton

end OmegaAutomata
