import FlareTrader.SortedList

/-! An event limiter over sliding windows. `accept` takes an event when fewer
than `limit` accepted ones lie in the window that ends at it. A limiter that
kept only its last event at some point is bounded exactly if no window among
the first arrivals is over-full. -/

namespace SlidingWindow

theorem dropLast_append_getLast? {α : Type*} (l : List α) : l.dropLast ++ l.getLast?.toList = l := by
  cases l using List.reverseRecOn with
  | nil => rfl
  | append_singleton l a => simp

variable {τ : Type*} [LinearOrder τ] [Add τ]

def inWindow (period t s : τ) : Bool := t < s + period ∧ s ≤ t

def count (period : τ) (ts : List τ) (t : τ) : ℕ := ts.countP (inWindow period t)

def Bounded (period : τ) (limit : ℕ) (ts : List τ) : Prop := ∀ t, count period ts t ≤ limit

def accept (period : τ) (limit : ℕ) : List τ → List τ → List τ
  | hist, [] => hist
  | hist, t :: ts =>
    if count period hist t < limit then accept period limit (hist ++ [t]) ts
    else accept period limit hist ts

variable {period : τ} {limit : ℕ}

theorem count_append (as bs : List τ) (t : τ) :
    count period (as ++ bs) t = count period as t + count period bs t := List.countP_append

theorem count_le_length (period : τ) (ts : List τ) (t : τ) : count period ts t ≤ ts.length :=
  List.countP_le_length

theorem count_le_of_sublist (period : τ) {as bs : List τ} (h : as.Sublist bs) (t : τ) :
    count period as t ≤ count period bs t := h.countP_le

theorem accept_append (hist as bs : List τ) :
    accept period limit hist (as ++ bs) = accept period limit (accept period limit hist as) bs := by
  induction as generalizing hist with
  | nil => rfl
  | cons a as ih =>
    simp only [List.cons_append, accept]
    split_ifs
    · exact ih _
    · exact ih _

theorem accept_eq_append (period : τ) (limit : ℕ) (hist ts : List τ) :
    ∃ acc, acc.Sublist ts ∧ accept period limit hist ts = hist ++ acc := by
  induction ts generalizing hist with
  | nil => exact ⟨[], .slnil, by simp [accept]⟩
  | cons t ts ih =>
    simp only [accept]
    split_ifs
    · obtain ⟨acc, hsub, he⟩ := ih (hist ++ [t])
      exact ⟨t :: acc, hsub.cons_cons t, by rw [he]; simp⟩
    · obtain ⟨acc, hsub, he⟩ := ih hist
      exact ⟨acc, hsub.cons t, he⟩

theorem count_le_count (period : τ) {ts : List τ} {s t : τ} (hts : ∀ x ∈ ts, x ≤ s) (hst : s ≤ t) :
    count period ts t ≤ count period ts s := by
  apply List.countP_mono_left
  intro x hx hw
  simp only [inWindow, decide_eq_true_eq] at hw ⊢
  exact ⟨hst.trans_lt hw.1, hts x hx⟩

theorem count_eq_zero {ts : List τ} {t : τ} (h : ∀ x ∈ ts, t < x) : count period ts t = 0 := by
  apply List.countP_eq_zero.mpr
  intro x hx
  simp [inWindow, h x hx]

theorem bounded_snoc {hist : List τ} {t : τ} (hb : Bounded period limit hist)
    (hle : ∀ x ∈ hist, x ≤ t) (hc : count period hist t < limit) :
    Bounded period limit (hist ++ [t]) := by
  intro u
  rw [count_append]
  by_cases hw : inWindow period u t = true
  · have htu : t ≤ u := by
      simp only [inWindow, decide_eq_true_eq] at hw
      exact hw.2
    have h1 := count_le_count period hle htu
    have h2 := count_le_length period [t] u
    simp only [List.length_singleton] at h2
    omega
  · have h0 : count period [t] u = 0 := by simp [count, hw]
    have h1 := hb u
    omega

theorem bounded_accept {hist ts : List τ} (hb : Bounded period limit hist)
    (hs : (hist ++ ts).Pairwise (· ≤ ·)) : Bounded period limit (accept period limit hist ts) := by
  induction ts generalizing hist with
  | nil => exact hb
  | cons t ts ih =>
    have hle : ∀ x ∈ hist, x ≤ t := fun x hx =>
      (List.pairwise_append.mp hs).2.2 x hx t List.mem_cons_self
    simp only [accept]
    split_ifs with hc
    · exact ih (bounded_snoc hb hle hc) (by simpa using hs)
    · refine ih hb (hs.sublist ?_)
      exact (List.Sublist.refl hist).append (List.sublist_cons_self t ts)

/-- While every event stays inside the window of every later one, the limiter
accepts the first arrivals until it is full. -/
theorem accept_eq_take {hist ts : List τ} (hs : (hist ++ ts).Pairwise (· ≤ ·))
    (hclose : ∀ x ∈ hist ++ ts, ∀ t ∈ ts, t < x + period) :
    accept period limit hist ts = hist ++ ts.take (limit - hist.length) := by
  induction ts generalizing hist with
  | nil => simp [accept]
  | cons t ts ih =>
    have hall : count period hist t = hist.length := by
      apply List.countP_eq_length.mpr
      intro x hx
      simp only [inWindow, decide_eq_true_eq]
      exact ⟨hclose x (by simp [hx]) t List.mem_cons_self,
        (List.pairwise_append.mp hs).2.2 x hx t List.mem_cons_self⟩
    simp only [accept, hall]
    split_ifs with hc
    · have hstep : limit - hist.length = (limit - (hist ++ [t]).length) + 1 := by
        simp only [List.length_append, List.length_singleton]
        omega
      rw [ih (by simpa using hs) fun x hx u hu =>
        hclose x (by simpa using hx) u (List.mem_cons_of_mem t hu), hstep]
      simp
    · have hzero : limit - hist.length = 0 := by omega
      have hsub : (hist ++ ts).Sublist (hist ++ t :: ts) :=
        (List.Sublist.refl hist).append (List.sublist_cons_self t ts)
      rw [ih (hs.sublist hsub) fun x hx u hu =>
        hclose x (hsub.subset hx) u (List.mem_cons_of_mem t hu), hzero]
      simp

/-- Arrivals `early` were all accepted but only the last of them is remembered
when `late` arrive. -/
def restarted (period : τ) (limit : ℕ) (early late : List τ) : List τ :=
  early.dropLast ++ accept period limit early.getLast?.toList late

theorem count_early_le_one {early : List τ} {t : τ}
    (h : ∀ e ∈ early.dropLast, ¬ t < e + period) : count period early t ≤ 1 := by
  have hz : count period early.dropLast t = 0 := by
    apply List.countP_eq_zero.mpr
    intro e he
    simp [inWindow, h e he]
  have hl : early.getLast?.toList.length ≤ 1 := by cases early.getLast? <;> simp
  have hc := count_le_length period early.getLast?.toList t
  rw [← dropLast_append_getLast? early, count_append, hz]
  omega

theorem restarted_append (period : τ) (limit : ℕ) (early as bs : List τ) :
    ∃ acc, acc.Sublist bs ∧
      restarted period limit early (as ++ bs) = restarted period limit early as ++ acc := by
  obtain ⟨acc, hsub, he⟩ :=
    accept_eq_append period limit (accept period limit early.getLast?.toList as) bs
  exact ⟨acc, hsub, by simp [restarted, accept_append, he]⟩

/-- The window that ends at `t` holds what the window at the last event of a
prefix holds, so prefixes that are not over-full bound every window. -/
theorem count_le_of_prefixes {all pre : List τ} (hs : all.Pairwise (· ≤ ·)) (hp : pre <+: all)
    (h : ∀ i t, i < pre.length → all[i]? = some t → count period (all.take (i + 1)) t ≤ limit)
    (t : τ) : count period pre t ≤ limit := by
  have hsp : pre.Pairwise (· ≤ ·) := hs.sublist hp.sublist
  have hdown : ∀ a b : τ, a ≤ b → decide (b ≤ t) = true → decide (a ≤ t) = true := by
    intro a b hab hb
    simp only [decide_eq_true_eq] at hb ⊢
    exact hab.trans hb
  have hsplit : count period pre t = count period (pre.takeWhile fun x => decide (x ≤ t)) t := by
    conv_lhs => rw [← @List.takeWhile_append_dropWhile _ (fun x => decide (x ≤ t)) pre]
    rw [count_append, @count_eq_zero _ _ _ period (pre.dropWhile _), add_zero]
    intro x hx
    simpa using SortedList.of_mem_dropWhile hsp hdown hx
  have hle : ∀ x ∈ pre.takeWhile (fun x => decide (x ≤ t)), x ≤ t := fun x hx => by
    simpa using List.mem_takeWhile_imp hx
  have hpre : pre.takeWhile (fun x => decide (x ≤ t)) <+: all :=
    (List.takeWhile_prefix _).trans hp
  have hlen : (pre.takeWhile fun x => decide (x ≤ t)).length ≤ pre.length :=
    (List.takeWhile_prefix _).length_le
  rw [hsplit]
  generalize pre.takeWhile (fun x => decide (x ≤ t)) = q at hle hpre hlen
  cases q using List.reverseRecOn with
  | nil => simp [count]
  | append_singleton q u =>
    have hq : all.take (q.length + 1) = q ++ [u] := by
      have := List.prefix_iff_eq_take.mp hpre
      simpa using this.symm
    have hu : all[q.length]? = some u := by
      have hget : (all.take (q.length + 1))[q.length]? = some u := by simp [hq]
      rwa [List.getElem?_take_of_lt (by omega)] at hget
    have hlast : ∀ x ∈ q ++ [u], x ≤ u := by
      have hsq := hs.sublist hpre.sublist
      intro x hx
      rcases List.mem_append.mp hx with hx | hx
      · exact (List.pairwise_append.mp hsq).2.2 x hx u (by simp)
      · simp only [List.mem_singleton] at hx
        exact hx.le
    have hc := h q.length u (by simp only [List.length_append, List.length_singleton] at hlen; omega) hu
    rw [hq] at hc
    exact (count_le_count period hlast (hle u (by simp))).trans hc

variable [AddRightMono τ]

theorem restarted_of_forgotten {early late : List τ} {t : τ}
    (hs : (early ++ late).Pairwise (· ≤ ·)) (hlate : ∀ x ∈ late, x ≤ t)
    {e : τ} (he : e ∈ early.dropLast) (hwin : t < e + period) :
    restarted period limit early late = early ++ late.take (limit - 1) := by
  obtain ⟨pre, a, rfl⟩ : ∃ pre a, early = pre ++ [a] := by
    cases early using List.reverseRecOn with
    | nil => simp at he
    | append_singleton pre a => exact ⟨pre, a, rfl⟩
  rw [List.dropLast_concat] at he
  have hea : ∀ x ∈ [a] ++ late, e ≤ x := by
    intro x hx
    have hs' : (pre ++ ([a] ++ late)).Pairwise (· ≤ ·) := by simpa using hs
    exact (List.pairwise_append.mp hs').2.2 e he x hx
  have hs' : ([a] ++ late).Pairwise (· ≤ ·) := by
    refine hs.sublist ?_
    simp
  have ht : accept period limit [a] late = [a] ++ late.take (limit - 1) :=
    accept_eq_take hs' fun x hx u hu =>
      (hlate u hu).trans_lt (hwin.trans_le (add_le_add_left (hea x hx) period))
  simp only [restarted, List.dropLast_concat, List.getLast?_concat, Option.toList_some, ht]
  simp

theorem bounded_of_prefixes {early late : List τ} (hl : 1 ≤ limit)
    (hs : (early ++ late).Pairwise (· ≤ ·))
    (h : ∀ i t, i + 1 < early.length + limit → (early ++ late)[i]? = some t →
      count period ((early ++ late).take (i + 1)) t ≤ limit) :
    Bounded period limit (restarted period limit early late) := by
  intro t
  by_cases hf : ∃ e ∈ early.dropLast, t < e + period
  · obtain ⟨e, he, hwin⟩ := hf
    -- Arrivals after `t` are outside the window, so only those up to `t` count.
    obtain ⟨acc, hacc, hres⟩ := restarted_append period limit early
      (late.takeWhile fun x => decide (x ≤ t)) (late.dropWhile fun x => decide (x ≤ t))
    rw [List.takeWhile_append_dropWhile] at hres
    have hle : ∀ x ∈ late.takeWhile (fun x => decide (x ≤ t)), x ≤ t := fun x hx => by
      simpa using List.mem_takeWhile_imp hx
    have hgt : ∀ x ∈ late.dropWhile (fun x => decide (x ≤ t)), t < x := by
      intro x hx
      have hdown : ∀ a b : τ, a ≤ b → decide (b ≤ t) = true → decide (a ≤ t) = true := by
        intro a b hab hb
        simp only [decide_eq_true_eq] at hb ⊢
        exact hab.trans hb
      simpa using SortedList.of_mem_dropWhile (List.pairwise_append.mp hs).2.1 hdown hx
    have hpre : (early ++ late.takeWhile fun x => decide (x ≤ t)).Pairwise (· ≤ ·) :=
      hs.sublist ((List.Sublist.refl early).append (List.takeWhile_sublist _))
    rw [hres, restarted_of_forgotten hpre hle he hwin, count_append,
      count_eq_zero fun x hx => hgt x (hacc.subset hx), add_zero]
    have htake : (late.takeWhile fun x => decide (x ≤ t)).take (limit - 1) <+: late :=
      (List.take_prefix _ _).trans (List.takeWhile_prefix _)
    refine count_le_of_prefixes hs ((List.prefix_append_right_inj early).mpr htake) ?_ t
    intro i u hi hu
    refine h i u ?_ hu
    simp only [List.length_append, List.length_take] at hi
    omega
  · have hz : count period early.dropLast t = 0 := by
      apply List.countP_eq_zero.mpr
      intro e he
      have hn : ¬ t < e + period := fun hw => hf ⟨e, he, hw⟩
      simp [inWindow, hn]
    rw [restarted, count_append, hz, zero_add]
    refine bounded_accept (fun u => ?_) (hs.sublist ?_) t
    · have hc := count_le_length period early.getLast?.toList u
      have hlen : early.getLast?.toList.length ≤ 1 := by cases early.getLast? <;> simp
      omega
    · refine List.Sublist.append ?_ (List.Sublist.refl late)
      conv_rhs => rw [← dropLast_append_getLast? early]
      exact List.sublist_append_right _ _

theorem prefixes_of_bounded {early late : List τ} (hl : 1 ≤ limit)
    (hs : (early ++ late).Pairwise (· ≤ ·))
    (hb : Bounded period limit (restarted period limit early late))
    {i : ℕ} {t : τ} (hi : i + 1 < early.length + limit) (ht : (early ++ late)[i]? = some t) :
    count period ((early ++ late).take (i + 1)) t ≤ limit := by
  have htake : ((early ++ late).take (i + 1)).Sublist
      (early ++ late.take (i + 1 - early.length)) := by
    rw [List.take_append]
    exact (List.take_sublist _ _).append (List.Sublist.refl _)
  by_cases hf : ∃ e ∈ early.dropLast, t < e + period
  · obtain ⟨e, he, hwin⟩ := hf
    have hle : ∀ x ∈ late.take (i + 1 - early.length), x ≤ t := fun x hx =>
      SortedList.le_of_mem_take hs ht (by rw [List.take_append]; exact List.mem_append_right _ hx)
    have hpre : (early ++ late.take (i + 1 - early.length)).Pairwise (· ≤ ·) :=
      hs.sublist ((List.Sublist.refl early).append (List.take_sublist _ _))
    obtain ⟨acc, -, hres⟩ := restarted_append period limit early
      (late.take (i + 1 - early.length)) (late.drop (i + 1 - early.length))
    rw [List.take_append_drop, restarted_of_forgotten hpre hle he hwin, List.take_take,
      Nat.min_eq_right (by omega)] at hres
    calc count period ((early ++ late).take (i + 1)) t
        ≤ count period (early ++ late.take (i + 1 - early.length)) t :=
          count_le_of_sublist period htake t
      _ ≤ count period (restarted period limit early late) t :=
          count_le_of_sublist period (hres ▸ List.sublist_append_left _ acc) t
      _ ≤ limit := hb t
  · have h1 : count period early t ≤ 1 := count_early_le_one fun e he hw => hf ⟨e, he, hw⟩
    have h2 := count_le_of_sublist period htake t
    have h3 := count_le_length period (late.take (i + 1 - early.length)) t
    rw [count_append] at h2
    simp only [List.length_take] at h3
    omega

/-- The exact condition: no window that ends at one of the first
`early.length + limit - 1` arrivals holds more than `limit` arrivals. -/
theorem bounded_restarted_iff {early late : List τ} (hl : 1 ≤ limit)
    (hs : (early ++ late).Pairwise (· ≤ ·)) :
    Bounded period limit (restarted period limit early late) ↔
      ∀ i t, i + 1 < early.length + limit → (early ++ late)[i]? = some t →
        count period ((early ++ late).take (i + 1)) t ≤ limit :=
  ⟨fun hb _ _ hi ht => prefixes_of_bounded hl hs hb hi ht, bounded_of_prefixes hl hs⟩

end SlidingWindow
