import Ember.Proofs.Heap.Display
import Ember.Proofs.Heap.History
import Ember.Proofs.Host.IntegerKeys
import Ember.Proofs.Host.Restraint
import Ember.Proofs.Host.Slices
import Ember.Proofs.Ir.Constants
import Ember.Proofs.Ir.Listing
import Ember.Proofs.Lowering.Output
import Ember.Proofs.Lowering.Resolution
import Ember.Proofs.Lowering.Symbols
import Ember.Proofs.Machine.Annotation
import Ember.Proofs.Machine.Matching
import Ember.Proofs.Machine.Observation
import Ember.Proofs.Machine.Slots
