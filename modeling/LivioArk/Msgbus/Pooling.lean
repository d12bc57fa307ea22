import LivioArk.Msgbus.PooledBus

namespace LivioArk.Msgbus.Pooling

open Function Levels Message Ownership PublishPaths PooledBus
open TopicRegistry (Registry find resolve to_string)
open LivioArk.Library.Transition LivioArk.Library.Holdings

variable {τ κ δ B P H : Type}

section Store

variable {l l' : List (ℕ × ℕ)} {p : ℕ × ℕ} {h h' : Heap τ κ δ} {messages : List (Content τ κ δ)}

/-- `l` pairs what each `MessagePtr` points to with the message that it stands
for. Pointers to one object stand for one message. -/
structure Agree (l : List (ℕ × ℕ)) (h : Heap τ κ δ) (messages : List (Content τ κ δ)) :
    Prop where
  sound : Sound (l.map Prod.fst) h
  lives : ∀ p ∈ l, ∀ q ∈ l, p.1 = q.1 ↔ p.2 = q.2
  content : ∀ p ∈ l, h.content p.1 = messages[p.2]?

theorem Agree.mem_fst (hp : p ∈ l) : p.1 ∈ l.map Prod.fst := List.mem_map.mpr ⟨p, hp, rfl⟩

theorem Agree.perm (ha : Agree l h messages) (hl : l.Perm l') : Agree l' h messages where
  sound := ha.sound.perm (hl.map Prod.fst)
  lives p hp q hq := ha.lives p (hl.mem_iff.mpr hp) q (hl.mem_iff.mpr hq)
  content p hp := ha.content p (hl.mem_iff.mpr hp)

theorem Agree.copy (ha : Agree l h messages) (hp : p ∈ l) :
    Agree (p :: l) (MessagePtr.copy p.1 h) messages where
  sound := ha.sound.copy (Agree.mem_fst hp)
  lives q hq q' hq' := by
    have hmem : ∀ q ∈ p :: l, q ∈ l := by
      intro q hq
      cases List.mem_cons.mp hq with
      | inl he => exact he ▸ hp
      | inr hq => exact hq
    exact ha.lives q (hmem q hq) q' (hmem q' hq')
  content q hq := by
    rw [content_copy]
    cases List.mem_cons.mp hq with
    | inl he => exact he ▸ ha.content p hp
    | inr hq => exact ha.content q hq

theorem Agree.publish {c : Content τ κ δ} {raw : ℕ} (ha : Agree l h messages)
    (hb : Published (l.map Prod.fst) h c raw h') :
    Agree ((raw, messages.length) :: l) h' (messages ++ [c]) := by
  have hlt : ∀ q ∈ l, q.2 < messages.length := by
    intro q hq
    obtain ⟨m, hm, -⟩ := ha.sound.owned q.1 (Agree.mem_fst hq)
    have hcontent := ha.content q hq
    rw [Heap.content, hm, Option.map_some] at hcontent
    exact (List.getElem?_eq_some_iff.mp hcontent.symm).1
  have hraw : ∀ q ∈ l, q.1 ≠ raw :=
    fun q hq he ↦ hb.unreferenced (he ▸ Agree.mem_fst hq)
  refine ⟨hb.sound, ?_, ?_⟩
  · intro q hq q' hq'
    cases List.mem_cons.mp hq with
    | inl he =>
      cases List.mem_cons.mp hq' with
      | inl he' => simp [he, he']
      | inr hq' => simp [he, (hraw q' hq').symm, Nat.ne_of_gt (hlt q' hq')]
    | inr hq =>
      cases List.mem_cons.mp hq' with
      | inl he' => simp [he', hraw q hq, Nat.ne_of_lt (hlt q hq)]
      | inr hq' => exact ha.lives q hq q' hq'
  · intro q hq
    cases List.mem_cons.mp hq with
    | inl he =>
      rw [he, hb.content]
      simp
    | inr hq =>
      rw [hb.others q.1 (Agree.mem_fst hq), ha.content q hq, List.getElem?_append_left (hlt q hq)]

variable [DecidableEq τ]

theorem Agree.reset (ha : Agree (p :: l) h messages) (full : Bool) :
    Agree l (MessagePtr.reset full p.1 h) messages where
  sound := ha.sound.reset
  lives q hq q' hq' :=
    ha.lives q (List.mem_cons_of_mem p hq) q' (List.mem_cons_of_mem p hq')
  content q hq := by
    rw [content_reset ha.sound (Agree.mem_fst hq)]
    exact ha.content q (List.mem_cons_of_mem p hq)

theorem Agree.notify_drop (ha : Agree l h messages) (hp : p ∈ l) :
    (Reference.notify_drop p.2 messages).1 = (h.notify_drop p.1).1 ∧
      Agree l (h.notify_drop p.1).2 (Reference.notify_drop p.2 messages).2 := by
  obtain ⟨c, hc, hcall, hsound, hself, hothers⟩ := ha.sound.notify_drop (Agree.mem_fst hp)
  have hmessage : messages[p.2]? = some c := by rw [← ha.content p hp, hc]
  have heq : Reference.notify_drop p.2 messages =
      (Content.dropCall c, messages.set p.2 { c with on_drop := none }) := by
    unfold Reference.notify_drop
    rw [hmessage]
    rfl
  rw [heq]
  refine ⟨hcall.symm, hsound, ha.lives, ?_⟩
  intro q hq
  by_cases he : q.1 = p.1
  · have hlt : p.2 < messages.length := (List.getElem?_eq_some_iff.mp hmessage).1
    rw [he, hself, (ha.lives q hq p hp).mp he, List.getElem?_set_self hlt]
  · have hne : p.2 ≠ q.2 := fun hm ↦ he ((ha.lives q hq p hp).mpr hm.symm)
    rw [hothers q.1 he, ha.content q hq, List.getElem?_set_ne hne]

end Store

/-- The handle has the id and the string that its topic still resolves to. -/
structure SameTopic (registries : B → Registry) (t : B × TopicHandle τ κ)
    (n : B × Reference.NamedTopic τ κ) : Prop where
  bus : n.1 = t.1
  type : n.2.type = t.2.type
  found : find n.2.name (registries t.1) = some t.2.tid_
  string : (registries t.1).id_to_sv_.lookup t.2.tid_ = some t.2.topic_sv_
  callback : ∀ d, t.2.cached_on_drop_ = some d → d.type = t.2.type
  on_drop : n.2.on_drop = t.2.cached_on_drop_.map DropCallback.cb

section Registries

variable [DecidableEq B] {registries : B → Registry}

theorem SameTopic.resolve {t : B × TopicHandle τ κ}
    {n : B × Reference.NamedTopic τ κ} (h : SameTopic registries t n) (b : B) (name : Str) :
    SameTopic (update registries b (resolve name (registries b)).2) t n where
  bus := h.bus
  type := h.type
  found := by
    by_cases hb : t.1 = b
    · subst hb
      rw [update_self]
      exact find_resolve h.found name
    · rw [update_of_ne hb]
      exact h.found
  string := by
    by_cases hb : t.1 = b
    · subst hb
      rw [update_self]
      exact lookup_resolve h.string name
    · rw [update_of_ne hb]
      exact h.string
  callback := h.callback
  on_drop := h.on_drop

theorem named_update (h : ∀ b, Named (registries b)) (b : B)
    (name : Str) : ∀ b', Named (update registries b (resolve name (registries b)).2 b') := by
  intro b'
  by_cases hb : b' = b
  · subst hb
    rw [update_self]
    exact (h b').resolve name
  · rw [update_of_ne hb]
    exact h b'

end Registries

abbrev Pooled (τ κ δ B P H : Type) : Type :=
  System τ κ δ B P H (Heap τ κ δ) ℕ (TopicHandle τ κ)

abbrev Abstract (τ κ δ B P H : Type) : Type :=
  System τ κ δ B P H (List (Content τ κ δ)) ℕ (Reference.NamedTopic τ κ)

structure Related (s : Pooled τ κ δ B P H) (x : Abstract τ κ δ B P H) : Prop where
  control : x.control = s.control
  named : ∀ b, Named (s.control.registries b)
  handles : ∀ h, Option.Rel (SameTopic s.control.registries) (s.handles h) (x.handles h)
  ptrs : ∃ l : List (Place B P × (ℕ × ℕ)), s.ptrs = mapHeld Prod.fst l ∧
    x.ptrs = mapHeld Prod.snd l ∧ Agree (l.map Prod.snd) s.store x.store

namespace Related

variable {s : Pooled τ κ δ B P H} {x : Abstract τ κ δ B P H}

theorem withControl (h : Related s x) (c : Control τ κ δ B P)
    (hc : c.registries = s.control.registries) :
    Related { s with control := c } { x with control := c } where
  control := rfl
  named := hc ▸ h.named
  handles := hc ▸ h.handles
  ptrs := h.ptrs

theorem record (h : Related s x) (e : Event τ κ δ B P) : Related (s.record e) (x.record e) := by
  unfold System.record
  rw [h.control]
  exact h.withControl _ rfl

theorem cached_string {b : B} (h : Related s x) (name : Str) :
    (resolve name (s.control.registries b)).2.id_to_sv_.lookup
        (resolve name (s.control.registries b)).1 =
      some (to_string (resolve name (s.control.registries b)).1
        (resolve name (s.control.registries b)).2) := by
  obtain ⟨sv, hsv⟩ := (h.named b).resolve name _ _ (find_resolve_self name _)
  rw [to_string, hsv, Option.getD_some]

theorem sound (h : Related s x) : Sound (s.ptrs.map Prod.snd) s.store := by
  obtain ⟨l, hs, -, ha⟩ := h.ptrs
  rw [hs, snd_mapHeld]
  exact ha.sound

theorem contents_eq [DecidableEq τ] (h : Related s x) :
    s.contents (pooled τ κ δ) = x.contents (reference τ κ δ) := by
  obtain ⟨l, hs, hx, ha⟩ := h.ptrs
  unfold System.contents mapHeld
  rw [hs, hx, mapHeld, mapHeld, List.map_map, List.map_map]
  apply List.map_congr_left
  intro e he
  have hcontent := ha.content e.2 (List.mem_map.mpr ⟨e, he, rfl⟩)
  exact congrArg (Prod.mk e.1) hcontent

section Control

variable [DecidableEq P] in
theorem goto (h : Related s x) (p : P) (pc : PubPc B) : Related (s.goto p pc) (x.goto p pc) := by
  unfold System.goto
  rw [h.control]
  exact h.withControl _ rfl

variable [DecidableEq B]

theorem setBusy (h : Related s x) (c : Consumer B) (busy : Bool) :
    Related (s.setBusy c busy) (x.setBusy c busy) := by
  unfold System.setBusy
  rw [h.control]
  exact h.withControl _ rfl

theorem setRunning (h : Related s x) (b : B) (running : Bool) :
    Related (s.setRunning b running) (x.setRunning b running) := by
  unfold System.setRunning
  rw [h.control]
  exact h.withControl _ rfl

theorem setRegistry (h : Related s x) (b : B) (name : Str) :
    Related (s.setRegistry b (resolve name (s.control.registries b)).2)
      (x.setRegistry b (resolve name (s.control.registries b)).2) where
  control := by simp only [System.setRegistry, h.control]
  named := named_update h.named b name
  handles k := by
    have hk := h.handles k
    simp only [System.setRegistry]
    generalize s.handles k = t, x.handles k = n at hk ⊢
    cases hk with
    | none => exact .none
    | some hsame => exact .some (SameTopic.resolve hsame b name)
  ptrs := h.ptrs

theorem setHandle [DecidableEq H] (h : Related s x) (k : H) (b : B) (name : Str)
    {t : TopicHandle τ κ} {n : Reference.NamedTopic τ κ} {registry : Registry}
    (hregistry : registry = (resolve name (s.control.registries b)).2)
    (hsame : SameTopic (update s.control.registries b registry) (b, t) (b, n)) :
    Related (s.setHandle k b (t, registry)) (x.setHandle k b (n, registry)) := by
  subst hregistry
  have hr := h.setRegistry b name
  refine ⟨hr.control, hr.named, ?_, hr.ptrs⟩
  intro k'
  simp only [System.setHandle, System.setRegistry]
  by_cases hk : k' = k
  · subst hk
    rw [update_self, update_self]
    exact .some hsame
  · rw [update_of_ne hk, update_of_ne hk]
    exact hr.handles k'

end Control

variable [DecidableEq B] [DecidableEq P]

section Pointers

variable (h : Related s x)
include h

theorem moveTo (src dst : Place B P) : Related (s.moveTo src dst) (x.moveTo src dst) := by
  obtain ⟨l, hs, hx, ha⟩ := h.ptrs
  unfold System.moveTo
  rw [hs, hx, first_mapHeld, first_mapHeld]
  cases hf : first src l with
  | none => exact h
  | some p =>
    refine ⟨h.control, h.named, h.handles, remove src l ++ [(dst, p)], ?_, ?_, ?_⟩
    · rw [remove_mapHeld, mapHeld_append]
      rfl
    · rw [remove_mapHeld, mapHeld_append]
      rfl
    · exact ha.perm (moved_perm hf).symm

theorem held_eq (place : Place B P) : held place x.ptrs = held place s.ptrs := by
  obtain ⟨l, hs, hx, -⟩ := h.ptrs
  rw [hs, hx, held_mapHeld, held_mapHeld]

variable [DecidableEq τ]

theorem copyTo (src dst : Place B P) :
    Related (s.copyTo (pooled τ κ δ) src dst) (x.copyTo (reference τ κ δ) src dst) := by
  obtain ⟨l, hs, hx, ha⟩ := h.ptrs
  unfold System.copyTo
  rw [hs, hx, first_mapHeld, first_mapHeld]
  cases hf : first src l with
  | none => exact h
  | some p =>
    refine ⟨h.control, h.named, h.handles, l ++ [(dst, p)], ?_, ?_, ?_⟩
    · rw [mapHeld_append]
      rfl
    · rw [mapHeld_append]
      rfl
    · have hcopy := ha.copy (first_mem hf)
      rw [List.map_append]
      exact hcopy.perm (List.perm_append_singleton p _).symm

theorem passValue (policy : MessageBus.FullPolicy) (p : P) :
    Related (s.passValue (pooled τ κ δ) policy p) (x.passValue (reference τ κ δ) policy p) := by
  cases policy with
  | ReturnFalse => exact h.moveTo _ _
  | _ => exact h.copyTo _ _

theorem reset (full : Bool) (place : Place B P) :
    Related (s.reset (pooled τ κ δ) full place) (x.reset (reference τ κ δ) full place) := by
  obtain ⟨l, hs, hx, ha⟩ := h.ptrs
  unfold System.reset
  rw [hs, hx, first_mapHeld, first_mapHeld]
  cases hf : first place l with
  | none => exact h
  | some p =>
    refine ⟨h.control, h.named, h.handles, remove place l, remove_mapHeld .., ?_, ?_⟩
    · exact remove_mapHeld ..
    · exact (ha.perm ((first_perm hf).map Prod.snd)).reset full

theorem notify_drop (place : Place B P) :
    Related (s.notify_drop (pooled τ κ δ) place) (x.notify_drop (reference τ κ δ) place) := by
  obtain ⟨l, hs, hx, ha⟩ := h.ptrs
  unfold System.notify_drop
  rw [hs, hx, first_mapHeld, first_mapHeld, h.control]
  cases hf : first place l with
  | none => exact h
  | some p =>
    obtain ⟨hcall, hagree⟩ := ha.notify_drop (first_mem hf)
    refine ⟨?_, h.named, h.handles, l, rfl, rfl, hagree⟩
    simp only [pooled, reference, Option.map_some, hcall]

theorem content (place : Place B P) :
    x.content (reference τ κ δ) place = s.content (pooled τ κ δ) place := by
  obtain ⟨l, hs, hx, ha⟩ := h.ptrs
  unfold System.content
  rw [hs, hx, first_mapHeld, first_mapHeld]
  cases hf : first place l with
  | none => rfl
  | some p => exact (ha.content p (first_mem hf)).symm

theorem try_enqueue (capacity : ℕ) (queue value : Place B P) (contended full : Bool) :
    ∃ ok s' x',
      s.try_enqueue (pooled τ κ δ) capacity queue value contended full = (ok, s') ∧
      x.try_enqueue (reference τ κ δ) capacity queue value contended full = (ok, x') ∧
      Related s' x' := by
  unfold System.try_enqueue
  rw [h.held_eq]
  by_cases hroom : !contended ∧ held queue s.ptrs < capacity
  · rw [if_pos hroom, if_pos hroom]
    exact ⟨true, _, _, rfl, rfl, h.moveTo value queue⟩
  · rw [if_neg hroom, if_neg hroom]
    exact ⟨false, _, _, rfl, rfl, h.reset full value⟩

theorem try_dequeue (queue value : Place B P) (contended full : Bool) :
    ∃ ok s' x',
      s.try_dequeue (pooled τ κ δ) queue value contended full = (ok, s') ∧
      x.try_dequeue (reference τ κ δ) queue value contended full = (ok, x') ∧
      Related s' x' := by
  unfold System.try_dequeue
  rw [h.held_eq]
  by_cases hempty : contended ∨ held queue s.ptrs = 0
  · rw [if_pos hempty, if_pos hempty]
    exact ⟨false, s, x, rfl, rfl, h⟩
  · rw [if_neg hempty, if_neg hempty]
    exact ⟨true, _, _, rfl, rfl, (h.reset full value).moveTo queue value⟩

end Pointers

section Registries

theorem enqueueMessage (h : Related s x) (p : P) (b : B) (name : Str) {raw : ℕ}
    {h' : Heap τ κ δ} {c : Content τ κ δ} {registry : Registry}
    (hb : Published (s.ptrs.map Prod.snd) s.store c raw h')
    (hregistry : registry = (resolve name (s.control.registries b)).2) :
    Related (s.enqueueMessage p b (raw, h', registry))
      (x.enqueueMessage p b (x.store.length, x.store ++ [c], registry)) := by
  obtain ⟨l, hs, hx, ha⟩ := h.ptrs
  rw [hs, snd_mapHeld] at hb
  have hl : Agree ((l ++ [(Place.mptr p, (raw, x.store.length))]).map Prod.snd) h'
      (x.store ++ [c]) := by
    rw [List.map_append]
    exact (ha.publish hb).perm (List.perm_append_singleton _ _).symm
  have hbuilt : Related { s with ptrs := s.ptrs ++ [(Place.mptr p, raw)], store := h' }
      { x with
        ptrs := x.ptrs ++ [(Place.mptr p, x.store.length)]
        store := x.store ++ [c] } := by
    refine ⟨h.control, h.named, h.handles, _, ?_, ?_, hl⟩
    · rw [hs, mapHeld_append]
      rfl
    · rw [hx, mapHeld_append]
      rfl
  subst hregistry
  exact (hbuilt.setRegistry b name).goto p _

end Registries

section Steps

variable [DecidableEq τ] (cfg : Config B) (h : Related s x)
include h

theorem enqueueStep (p : P) (contended full : Bool) :
    Option.Rel Related (enqueueStep (pooled τ κ δ) cfg s p contended full)
      (enqueueStep (reference τ κ δ) cfg x p contended full) := by
  unfold PooledBus.enqueueStep
  rw [h.control]
  cases s.control.publishers p with
  | tryEnqueue b =>
    obtain ⟨ok, s', x', hs, hx, h'⟩ := (h.passValue (cfg.policy_ b) p).try_enqueue
      (cfg.queue_capacity_ b) (.queue_ b) (.value p) contended full
    simp only [hs, hx]
    exact .some (h'.goto p _)
  | _ => exact .none

theorem retryStep (p : P) (last contended full : Bool) :
    Option.Rel Related (retryStep (pooled τ κ δ) cfg s p last contended full)
      (retryStep (reference τ κ δ) cfg x p last contended full) := by
  unfold PooledBus.retryStep
  rw [h.control]
  cases s.control.publishers p with
  | waiting b =>
    obtain ⟨ok, s', x', hs, hx, h'⟩ := (h.copyTo (.mptr p) (.value p)).try_enqueue
      (cfg.queue_capacity_ b) (.queue_ b) (.value p) contended full
    simp only [hs, hx]
    split
    · exact .none
    · split
      · exact .some (h.goto p _)
      · exact .some (h'.goto p _)
  | _ => exact .none

theorem takeOldestStep (p : P) (contended full : Bool) :
    Option.Rel Related (takeOldestStep (pooled τ κ δ) s p contended full)
      (takeOldestStep (reference τ κ δ) x p contended full) := by
  unfold PooledBus.takeOldestStep
  rw [h.control]
  cases s.control.publishers p with
  | takeOldest b =>
    obtain ⟨ok, s', x', hs, hx, h'⟩ := h.try_dequeue (.queue_ b) (.oldest p) contended full
    simp only [hs, hx]
    exact .some (h'.goto p _)
  | _ => exact .none

theorem notifyDropStep (p : P) :
    Option.Rel Related (notifyDropStep (pooled τ κ δ) s p)
      (notifyDropStep (reference τ κ δ) x p) := by
  unfold PooledBus.notifyDropStep
  rw [h.control]
  cases s.control.publishers p with
  | notifyNewest b => exact .some ((h.notify_drop _).goto p _)
  | notifyOldest b => exact .some ((h.notify_drop _).goto p _)
  | _ => exact .none

theorem leaveStep (p : P) (full : Bool) :
    Option.Rel Related (leaveStep (pooled τ κ δ) s p full)
      (leaveStep (reference τ κ δ) x p full) := by
  unfold PooledBus.leaveStep
  rw [h.control]
  cases s.control.publishers p with
  | leaving result => exact .some ((h.reset full _).goto p _)
  | _ => exact .none

theorem finishStep (p : P) (full : Bool) :
    Option.Rel Related (finishStep (pooled τ κ δ) s p full)
      (finishStep (reference τ κ δ) x p full) := by
  unfold PooledBus.finishStep
  rw [h.control]
  cases s.control.publishers p with
  | returning result => exact .some (((h.reset full _).goto p _).record _)
  | _ => exact .none

theorem takeStep (c : Consumer B) (contended full : Bool) :
    Option.Rel Related (takeStep (pooled τ κ δ) s c contended full)
      (takeStep (reference τ κ δ) x c contended full) := by
  unfold PooledBus.takeStep
  rw [h.control]
  obtain ⟨ok, s', x', hs, hx, h'⟩ := h.try_dequeue c.source (.msg c) contended full
  simp only [hs, hx]
  split
  · exact .none
  · exact .some (h'.setBusy c ok)

theorem dispatchStep (c : Consumer B) :
    Option.Rel Related (dispatchStep (pooled τ κ δ) cfg s c)
      (dispatchStep (reference τ κ δ) cfg x c) := by
  unfold PooledBus.dispatchStep
  rw [h.control, h.content]
  split
  · cases s.content (pooled τ κ δ) (.msg c) with
    | none => exact .none
    | some m => exact .some ((h.setBusy c false).record _)
  · exact .none

theorem routeStep (b : B) (contended full : Bool) :
    Option.Rel Related (routeStep (pooled τ κ δ) cfg s b contended full)
      (routeStep (reference τ κ δ) cfg x b contended full) := by
  unfold PooledBus.routeStep
  rw [h.control, h.content]
  split
  · cases s.content (pooled τ κ δ) (.msg (.loop b)) with
    | none => exact .none
    | some m =>
      obtain ⟨ok, s', x', hs, hx, h'⟩ := (h.copyTo (.msg (.loop b)) (.routedValue b)).try_enqueue
        (cfg.queue_capacity_ b) (.worker_queues_ b (cfg.hash m.topic_id % cfg.num_dispatchers_ b))
        (.routedValue b) contended full
      simp only [Option.map_some, hs, hx]
      exact .some (h'.setBusy _ _)
  · exact .none

variable [DecidableEq H]

theorem publishStep (p : P) (b : B) (T : τ) (name : Str) (msg : δ) (hit : Bool) :
    Option.Rel Related (step (pooled τ κ δ) cfg s (.publish p b T name msg hit))
      (step (reference τ κ δ) cfg x (.publish p b T name msg hit)) := by
  simp only [step, h.control]
  cases s.control.publishers p with
  | idle => exact .some (h.enqueueMessage p b name (publish_published h.sound ..) rfl)
  | _ => exact .none

theorem publishOnDropStep (p : P) (b : B) (T : τ) (name : Str) (msg : δ) (on_drop : Option κ)
    (hit : Bool) :
    Option.Rel Related (step (pooled τ κ δ) cfg s (.publishOnDrop p b T name msg on_drop hit))
      (step (reference τ κ δ) cfg x (.publishOnDrop p b T name msg on_drop hit)) := by
  have hpub := publishOnDrop_published h.sound T hit name msg on_drop (s.control.registries b)
  simp only [step, h.control]
  cases s.control.publishers p with
  | idle =>
    cases on_drop with
    | none => exact .some (h.enqueueMessage p b name hpub rfl)
    | some cb => exact .some (h.enqueueMessage p b name hpub rfl)
  | _ => exact .none

theorem topicStep (k : H) (b : B) (T : τ) (name : Str) :
    Option.Rel Related (step (pooled τ κ δ) cfg s (.topic k b T name))
      (step (reference τ κ δ) cfg x (.topic k b T name)) := by
  simp only [step, h.control]
  refine .some (h.setHandle k b name rfl ⟨rfl, rfl, ?_, ?_, ?_, rfl⟩)
  · rw [update_self]
    exact find_resolve_self name _
  · rw [update_self]
    exact h.cached_string name
  · intro d hd
    cases hd

theorem topicOnDropStep (k : H) (b : B) (T : τ) (name : Str) (on_drop : Option κ) :
    Option.Rel Related (step (pooled τ κ δ) cfg s (.topicOnDrop k b T name on_drop))
      (step (reference τ κ δ) cfg x (.topicOnDrop k b T name on_drop)) := by
  cases on_drop with
  | none => exact h.topicStep cfg k b T name
  | some cb =>
    simp only [step, h.control]
    refine .some (h.setHandle k b name rfl ⟨rfl, rfl, ?_, ?_, ?_, rfl⟩)
    · rw [update_self]
      exact find_resolve_self name _
    · rw [update_self]
      exact h.cached_string name
    · intro d hd
      exact Option.some.inj hd ▸ rfl

theorem handlePublishStep (p : P) (k : H) (msg : δ) (hit : Bool) :
    Option.Rel Related (step (pooled τ κ δ) cfg s (.handlePublish p k msg hit))
      (step (reference τ κ δ) cfg x (.handlePublish p k msg hit)) := by
  have hk := h.handles k
  simp only [step, h.control]
  generalize s.handles k = t, x.handles k = n at hk ⊢
  cases hk with
  | none =>
    cases s.control.publishers p with
    | _ => exact .none
  | @some t n hsame =>
    obtain ⟨b, t⟩ := t
    obtain ⟨b', n⟩ := n
    obtain rfl : b' = b := hsame.bus
    have htype : n.type = t.type := hsame.type
    have hon_drop : n.on_drop = t.cached_on_drop_.map DropCallback.cb := hsame.on_drop
    have hresolve := resolve_known hsame.found
    have hregistry : s.control.registries b' =
        (resolve n.name (s.control.registries b')).2 := by rw [hresolve]
    have hstring : to_string t.tid_ (s.control.registries b') = t.topic_sv_ := by
      rw [to_string, hsame.string, Option.getD_some]
    have hbuilt : Reference.publish n.type n.name msg n.on_drop (s.control.registries b')
        x.store = (x.store.length, x.store ++ [⟨t.type, t.tid_, t.topic_sv_, msg,
          t.cached_on_drop_.map DropCallback.cb⟩], s.control.registries b') := by
      simp only [Reference.publish, hresolve, hstring, htype, hon_drop]
    have hpub := handle_published h.sound t hit msg hsame.callback
    cases s.control.publishers p with
    | idle =>
      simp only [reference, hbuilt]
      exact .some (h.enqueueMessage p b' n.name hpub hregistry)
    | _ => exact .none

theorem step_rel (a : Action τ κ δ B P H) :
    Option.Rel Related (step (pooled τ κ δ) cfg s a) (step (reference τ κ δ) cfg x a) := by
  cases a with
  | start b => exact .some (h.setRunning b true)
  | stop b => exact .some (h.setRunning b false)
  | publish p b T name msg hit => exact h.publishStep cfg p b T name msg hit
  | publishOnDrop p b T name msg on_drop hit =>
    exact h.publishOnDropStep cfg p b T name msg on_drop hit
  | topic k b T name => exact h.topicStep cfg k b T name
  | topicOnDrop k b T name on_drop => exact h.topicOnDropStep cfg k b T name on_drop
  | handlePublish p k msg hit => exact h.handlePublishStep cfg p k msg hit
  | enqueue p contended full => exact h.enqueueStep cfg p contended full
  | retry p last contended full => exact h.retryStep cfg p last contended full
  | takeOldest p contended full => exact h.takeOldestStep p contended full
  | notifyDrop p => exact h.notifyDropStep p
  | leave p full => exact h.leaveStep p full
  | finish p full => exact h.finishStep p full
  | take c contended full => exact h.takeStep c contended full
  | dispatch c => exact h.dispatchStep cfg c
  | route b contended full => exact h.routeStep cfg b contended full
  | release c full =>
    simp only [step, h.control]
    split
    · exact .none
    · exact .some (h.reset full _)
  | discard c full => exact .some (h.reset full _)

end Steps

end Related

theorem related_initial [DecidableEq τ] :
    Related ({ store := {} } : Pooled τ κ δ B P H) { store := [] } where
  control := rfl
  named _ := named_initial
  handles _ := .none
  ptrs := by
    refine ⟨[], rfl, rfl, sound_empty, ?_, ?_⟩
    · intro p hp
      cases hp
    · intro p hp
      cases hp

variable [DecidableEq τ] [DecidableEq B] [DecidableEq P] [DecidableEq H]

/-- Along every schedule the code shows what a bus shows that makes a new
message and resolves its topic on every publish: the same log, and the same
message behind every pointer. All the while each object counts its pointers, and
none is in a pool that has one. -/
theorem pooled_refines_reference (cfg : Config B) (as : List (Action τ κ δ B P H)) :
    ((machine (pooled τ κ δ) cfg {}).run { store := {} } as).map
        (fun s ↦ (s.control.log, s.contents (pooled τ κ δ))) =
      ((machine (reference τ κ δ) cfg []).run { store := [] } as).map
        (fun x ↦ (x.control.log, x.contents (reference τ κ δ))) ∧
    ∀ s, (machine (pooled τ κ δ) cfg {}).run { store := {} } as = some s →
      Sound (s.ptrs.map Prod.snd) s.store := by
  have hrun := Machine.run_rel (M := machine (pooled τ κ δ) cfg {})
    (A := machine (reference τ κ δ) cfg []) (fun s x a h ↦ Related.step_rel cfg h a)
    related_initial as
  generalize (machine (pooled τ κ δ) cfg {}).run { store := {} } as = s',
    (machine (reference τ κ δ) cfg []).run { store := [] } as = x' at hrun ⊢
  cases hrun with
  | none =>
    refine ⟨rfl, ?_⟩
    intro s hs
    cases hs
  | some h =>
    refine ⟨by simp only [Option.map_some, h.control, h.contents_eq], ?_⟩
    intro s hs
    obtain rfl := Option.some.inj hs
    exact h.sound

theorem reused_run :
    ((machine (H := Unit) (pooled Unit ℕ ℕ)
        ⟨fun () ↦ .DropNewest, fun () ↦ 1, fun () ↦ 1, id⟩ {}).run { store := {} }
      [.publishOnDrop () () () "a".toList 5 (some 7) false, .enqueue () false false,
        .leave () false, .finish () false, .take (.loop ()) false false, .dispatch (.loop ()),
        .release (.loop ()) false, .publish () () () "b".toList 6 true, .enqueue () false false,
        .take (.loop ()) false false, .dispatch (.loop ())]).map
      (fun s ↦ (s.store.next, s.control.log)) =
    some (1, [.returned () true, .dispatched (.loop ()) () 1 "a".toList 5,
      .dispatched (.loop ()) () 2 "b".toList 6]) := by decide

end LivioArk.Msgbus.Pooling
