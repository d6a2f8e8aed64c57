import KeyRegistry.Journal.Output
import KeyRegistry.Json.Reader
import KeyRegistry.Proofs.Backoff.Sleeps
import KeyRegistry.Proofs.Center.Accounting
import KeyRegistry.Proofs.Center.Budget
import KeyRegistry.Proofs.Center.Confinement
import KeyRegistry.Proofs.Center.Contention
import KeyRegistry.Proofs.Center.Expiry
import KeyRegistry.Proofs.Center.Failing
import KeyRegistry.Proofs.Center.Mistakes
import KeyRegistry.Proofs.Center.Refinement
import KeyRegistry.Proofs.Center.Simulation
import KeyRegistry.Proofs.Ensemble.Injection
import KeyRegistry.Proofs.Ensemble.Protection
import KeyRegistry.Proofs.Ensemble.Sequence
import KeyRegistry.Proofs.Ensemble.Transaction
import KeyRegistry.Proofs.Ensemble.Versions
import KeyRegistry.Proofs.Namespace.Embedding
import KeyRegistry.Proofs.Path.Grammar
import KeyRegistry.Proofs.Properties.Relaying
import KeyRegistry.Proofs.Replica.Populating
import KeyRegistry.Proofs.Replica.Staleness
import KeyRegistry.Proofs.Scenario.Secrecy
import KeyRegistry.Proofs.Seed.Origin
import KeyRegistry.Proofs.Settings.Variables
import KeyRegistry.Proofs.Task.Deleting
import KeyRegistry.Proofs.Task.Planting
import KeyRegistry.Proofs.Task.Pruning
import KeyRegistry.Scenario
import KeyRegistry.Settings.Load
