import StackAssembler.Proofs.Machine.Effect

set_option autoImplicit false
set_option relaxedAutoImplicit false

namespace StackAssembler.Machine

variable (site : Site) (words : Array Word) (n pc : Nat) (memory : Bytes)

private theorem getElem?_reverse_toList (inside : n < words.size) :
    words.toList.reverse[n]? = words[words.size - 1 - n]? := by
  have bound : n < words.toList.length := by simpa using inside
  rw [List.getElem?_reverse bound, Array.length_toList, Array.getElem?_toList]

theorem duplicate_bottomUp (inside : n < words.size) :
    site.duplicate n ⟨pc, words.toList.reverse, memory⟩ =
      site.push words[words.size - 1 - n] ⟨pc, words.toList.reverse, memory⟩ := by
  have found : words.toList.reverse[n]? = some words[words.size - 1 - n] := by
    rw [getElem?_reverse_toList words n inside, Array.getElem?_eq_getElem]
  simp only [Site.duplicate, bind_apply, get_apply, found]

theorem duplicate_bottomUp_short (short : words.size ≤ n) :
    site.duplicate n ⟨pc, words.toList.reverse, memory⟩ =
      .error (.failed (.stackUnderflow site.op site.pc)) ⟨pc, words.toList.reverse, memory⟩ := by
  have absent : words.toList.reverse[n]? = none := List.getElem?_eq_none (by simpa using short)
  simp only [Site.duplicate, bind_apply, get_apply, absent]
  rfl

private theorem reverse_swap_last {top word : Word} {rest : List Word}
    (stack : words.toList.reverse = top :: rest) (inside : n + 1 < words.size)
    (found : rest[n]? = some word) :
    word :: rest.set n top =
      (words.swap (words.size - 1 - (n + 1)) (words.size - 1)).toList.reverse := by
  have above : ∀ i, i < words.size → words[words.size - 1 - i]? = (top :: rest)[i]? := by
    intro i bound
    rw [← stack, getElem?_reverse_toList words i bound]
  have last : words[words.size - 1]? = some top := by
    simpa using above 0 (by omega)
  have lower : words[words.size - 1 - (n + 1)]? = some word := by
    rw [above (n + 1) inside, List.getElem?_cons_succ, found]
  have length : rest.length + 1 = words.size := by
    simpa using (congrArg List.length stack).symm
  apply List.ext_getElem?
  intro i
  by_cases bound : i < words.size
  · have swapped : i < (words.swap (words.size - 1 - (n + 1)) (words.size - 1)).size := by
      simpa using bound
    rw [getElem?_reverse_toList _ i swapped, Array.getElem?_swap, Array.size_swap]
    rw [← Array.getElem?_eq_getElem, ← Array.getElem?_eq_getElem, last, lower]
    cases i with
    | zero => simp
    | succ j =>
        have below : ¬ words.size - 1 = words.size - 1 - (j + 1) := by omega
        rw [List.getElem?_cons_succ, List.getElem?_set, if_neg below]
        by_cases same : n = j
        · rw [if_pos same, if_pos (by omega), if_pos (by omega)]
        · rw [if_neg same, if_neg (by omega), above (j + 1) bound, List.getElem?_cons_succ]
  · have outside : (word :: rest.set n top).length ≤ i := by
      rw [List.length_cons, List.length_set]
      omega
    rw [List.getElem?_eq_none outside, List.getElem?_eq_none (by simpa using bound)]

theorem exchange_bottomUp (inside : n + 1 < words.size) :
    site.exchange n ⟨pc, words.toList.reverse, memory⟩ =
      .ok () ⟨pc, (words.swap (words.size - 1 - (n + 1)) (words.size - 1)).toList.reverse,
        memory⟩ := by
  cases stack : words.toList.reverse with
  | nil =>
      have empty : words.size = 0 := by simpa using congrArg List.length stack
      omega
  | cons top rest =>
      have bound : n < rest.length := by
        have length : words.size = rest.length + 1 := by simpa using congrArg List.length stack
        omega
      have found : rest[n]? = some rest[n] := List.getElem?_eq_getElem bound
      rw [← reverse_swap_last words n stack inside found]
      simp only [Site.exchange, found]

theorem exchange_bottomUp_short (short : words.size ≤ n + 1) :
    site.exchange n ⟨pc, words.toList.reverse, memory⟩ =
      .error (.failed (.stackUnderflow site.op site.pc)) ⟨pc, words.toList.reverse, memory⟩ := by
  cases stack : words.toList.reverse with
  | nil => rfl
  | cons top rest =>
      have bound : rest.length ≤ n := by
        have length : words.size = rest.length + 1 := by simpa using congrArg List.length stack
        omega
      simp only [Site.exchange, List.getElem?_eq_none bound]

end StackAssembler.Machine
